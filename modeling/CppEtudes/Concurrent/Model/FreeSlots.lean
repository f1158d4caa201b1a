import CppEtudes.Concurrent.Model.Hash

/-!
# Freeing the arrays of slots

`free_slots`. An array is known by the indices on the way to it, and what
is left of the call is the list of arrays that it has released, by
`delete` or `free`. The loop runs with some fuel.
-/

namespace CppEtudes

namespace Concurrent

/-- An entry of `head_stacks`: a `SlotArray` with its place in the tree. -/
structure StackEntry where
  path : List ℕ
  depth : ℕ
  slots : SlotTree depth

namespace StackEntry

/-- `top->slots[i]`, where it is an array. The pointers of an array of the
last level lead into the list; such an array is never on the stack. -/
def child : StackEntry → ℕ → Option StackEntry
  | ⟨path, depth + 1, slots⟩, i =>
    if h : i < slotIndexNr then (slots ⟨i, h⟩).map fun sub => ⟨path ++ [i], depth, sub⟩ else none
  | ⟨_, 0, _⟩, _ => none

/-- The inner loop: `from_idx` moves to the next array, for at most
`rounds` rounds. -/
def scan (top : StackEntry) : ℕ → ℕ → ℕ
  | 0, fromIdx => fromIdx
  | rounds + 1, fromIdx =>
    if fromIdx < slotIndexNr ∧ (top.child fromIdx).isNone then top.scan rounds (fromIdx + 1)
    else fromIdx

end StackEntry

/-- The variables of `free_slots`, with the top of the stack first, and
what was released. -/
structure FreeState where
  slotIndices : ℕ → ℕ
  headStacks : List StackEntry
  released : List (List ℕ)

/-- One round of the loop. -/
def freeRound (levelNr : ℕ) (s : FreeState) (top : StackEntry) (rest : List StackEntry) :
    FreeState :=
  let currLevel := rest.length
  if currLevel + 2 < levelNr then
    let fromIdx := top.scan slotIndexNr (s.slotIndices currLevel)
    match top.child fromIdx with
    | some sub =>
      { s with
        slotIndices := Function.update s.slotIndices currLevel (fromIdx + 1)
        headStacks := sub :: top :: rest }
    | none =>
      { slotIndices := Function.update s.slotIndices currLevel fromIdx
        headStacks := rest
        released := s.released ++ [top.path] }
  else
    { s with
      headStacks := rest
      released := s.released ++
        ((List.range slotIndexNr).filterMap top.child).map StackEntry.path ++ [top.path] }

/-- The loop. -/
def freeLoop (levelNr : ℕ) : ℕ → FreeState → Option (List (List ℕ))
  | 0, _ => none
  | fuel + 1, s =>
    match s.headStacks with
    | [] => some s.released
    | top :: rest => freeLoop levelNr fuel (freeRound levelNr s top rest)

/-- **`free_slots`**, of a tree with `level_nr = depth + 1` levels. -/
def freeSlots {depth : ℕ} (fuel : ℕ) : Option (SlotTree depth) → Option (List (List ℕ))
  | none => some []
  | some head =>
    if depth + 1 = 1 then some [[]]
    else freeLoop (depth + 1) fuel
      { slotIndices := fun _ => 0, headStacks := [⟨[], depth, head⟩], released := [] }

end Concurrent

end CppEtudes
