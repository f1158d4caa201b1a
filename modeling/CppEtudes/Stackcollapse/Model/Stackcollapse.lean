import CppEtudes.Calltree.Model.Preprocess

/-!
# `stackcollapse-greys`

The script reads the stack traces of a profile, section by section, and
prints each as one line. What a line is, `recognize` tells; a table of
transitions tells which line may follow which, and every other one is an
error. The end of the input is taken for a blank line. The lines read are
any texts, and the order of the lines printed is that of a hash, hence
not part of what is proved about them.
-/

namespace CppEtudes

namespace Stackcollapse

open Calltree Regex

/-! ## Lines -/

/-- What `recognize` returns: the section part, and what it captures. -/
inductive Event
  | sectBegin (threadName threadId : Text)
  | sectFirst (frame : Text)
  | sectRest (frame : Text)
  | sectEnd
  | sectUnknown
  deriving DecidableEq, Repr

/-- The header of a section, with the group that is read. -/
def reHeader (name id : Regex → Regex) : Regex :=
  cat [reBegin, lit "thread_name=\"", name reDot.manyLazy, lit "\"", reWs.plus, lit "thread_id=",
    id (cat [lit "0x", (Regex.set fun c => c.isDigit || ('a' ≤ c && c ≤ 'f')).plus])]

/-- A frame, behind what marks it: the last two parts of a dotted name. -/
def reFrame (mark : Regex) : Regex :=
  cat [reBegin, reWs.plus, mark, reWord.plus, (cat [chr '.', reWord.plus]).many, chr '.',
    .cap (cat [reWord.plus, chr '.', reWord.plus])]

def reFirst : Regex := reFrame (chr '@')

def reRest : Regex := reFrame (cat [lit "at", reWs.plus])

def reBlank : Regex := cat [reBegin, reWs.plus, reEnd]

/-- What the group takes of a line that begins with a match. -/
def captured (r : Regex) (line : Text) : Option Text :=
  (r.matchesAt none line).head?.map fun m => (m.filter Prod.snd).map Prod.fst

/-- **`recognize`.** -/
def recognize (line : Text) : Event :=
  match captured (reHeader .cap fun r => r) line, captured (reHeader (fun r => r) .cap) line with
  | some threadName, some threadId => .sectBegin threadName threadId
  | _, _ =>
    match captured reFirst line with
    | some frame => .sectFirst frame
    | none =>
      match captured reRest line with
      | some frame => .sectRest frame
      | none => if (captured reBlank line).isSome then .sectEnd else .sectUnknown

/-! ## Transitions -/

/-- `SECT_BEGIN` to `SECT_UNKNOWN`. -/
inductive Sect
  | sectBegin
  | sectFirst
  | sectRest
  | sectEnd
  | sectUnknown
  deriving DecidableEq, Repr

def Event.sect : Event → Sect
  | .sectBegin _ _ => .sectBegin
  | .sectFirst _ => .sectFirst
  | .sectRest _ => .sectRest
  | .sectEnd => .sectEnd
  | .sectUnknown => .sectUnknown

/-- `$ctx`. -/
structure Ctx where
  state : Sect
  thread : Option Text
  partialStack : Option (List Text)
  stack : AList fun _ : Text => ℕ

namespace Ctx

/-- `$ctx` before the first line. -/
def init : Ctx := ⟨.sectEnd, none, none, ∅⟩

def sectBegin (threadName threadId : Text) (ctx : Ctx) : Ctx :=
  { ctx with
    partialStack := some []
    thread := some (threadName ++ "(thread_id=".toList ++ threadId ++ ")".toList) }

def sectBody (frame : Text) (ctx : Ctx) : Ctx :=
  { ctx with partialStack := some (frame :: ctx.partialStack.getD []) }

def sectEnd (ctx : Ctx) : Ctx :=
  match ctx.partialStack with
  | none | some [] => { ctx with partialStack := none }
  | some frames =>
    let result := ";".toList.intercalate (ctx.thread.getD [] :: frames)
    { ctx with
      stack := ctx.stack.insert result ((ctx.stack.lookup result).getD 0 + 1)
      partialStack := none }

/-- An error discards what was collected so far. -/
def sectErr (_ : Ctx) : Ctx := ⟨.sectEnd, none, none, ∅⟩

/-- `$stateTrans`. -/
def stateTrans : Sect → Event → Option (Ctx → Ctx)
  | .sectEnd, .sectBegin threadName threadId => some (sectBegin threadName threadId)
  | .sectBegin, .sectFirst frame => some (sectBody frame)
  | .sectFirst, .sectRest frame => some (sectBody frame)
  | .sectRest, .sectRest frame => some (sectBody frame)
  | .sectRest, .sectEnd => some sectEnd
  | _, _ => none

/-- **`transfer`.** -/
def transfer (ctx : Ctx) (e : Event) : Ctx :=
  match stateTrans ctx.state e with
  | none => ctx.sectErr
  | some f => { f ctx with state := e.sect }

end Ctx

/-- **The script**: the lines it prints for the lines it reads. -/
def stackcollapse (lines : List Text) : List Text :=
  let ctx := lines.foldl (fun ctx line => ctx.transfer (recognize line)) Ctx.init
  let ctx := ctx.transfer .sectEnd
  ctx.stack.keys.map fun result => result ++ " 1".toList

end Stackcollapse

end CppEtudes
