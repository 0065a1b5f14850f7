import CallerFirst.CallExpr
import CallerFirst.Log

/-!
# The calls of an instruction sequence

The calls of a sequence are found by reading it from its end. A call instruction opens a pending
call; each value before it is the next part of the innermost pending call; a pending call that is
complete becomes a part of the one around it, or is found when there is none. Calls whose callee
names a class are dropped.

Main definitions:

* `Scan`: the state between two instructions;
* `Scan.step`: what one instruction does to it;
* `callSites`: the calls of a sequence, the last one first.
-/

namespace CallerFirst

/-- The state of a scan between two instructions. -/
structure Scan where
  /-- The calls with parts still to come, the innermost first. -/
  pending : List CallExpr := []
  /-- The calls found, in source order. -/
  found : List CallExpr := []
  log : List LogRecord := []

/-- Why a scan stops before the start of a sequence. -/
inductive ScanStop
  /-- A call has no usable arity, so the sequence cannot be read. -/
  | unreadable (log : List LogRecord)
  /-- A call has an arity that cannot be represented. -/
  | oversized

namespace Scan

/-- Adds a call that is complete and not part of another one; constructor calls are dropped. -/
def add (isClass : String → Bool) (s : Scan) (e : CallExpr) : Scan :=
  if e.isConstructor isClass then
    { s with log := s.log ++ [⟨.trace, "dropping constructor call " ++ e.display⟩] }
  else { s with found := e :: s.found }

/-- Moves complete calls outward: `top` is the innermost pending call and `rest` are those around
it. -/
def settle (isClass : String → Bool) (s : Scan) (top : CallExpr) : (rest : List CallExpr) → Scan
  | [] => if top.isComplete then add isClass { s with pending := [] } top
      else { s with pending := [top] }
  | parent :: rest =>
    if top.isComplete then settle isClass s (parent.feed top.toArgument) rest
    else { s with pending := top :: parent :: rest }

/-- Gives a value to the innermost pending call, if there is one. -/
def feed (isClass : String → Bool) (s : Scan) (i : Instruction) : Scan :=
  match s.pending with
  | [] => s
  | top :: rest => settle isClass s (top.feed (.value i)) rest

/-- Opens a call at position `index`. -/
def openCall (s : Scan) (index : Nat) (operand : Operand) : Except ScanStop Scan :=
  match operand.count? with
  | none =>
    .error (.unreadable (s.log ++ [⟨.debug, "call at " ++ toString index
      ++ " has no usable arity (" ++ operand.display ++ "), skipping sequence"⟩]))
  | some arity =>
    match CallExpr.new? arity with
    | some e => .ok { s with pending := e :: s.pending }
    | none => .error .oversized

/-- Takes the instruction at position `index`, which `next` follows. A call whose result goes into a
map is no call of its own. -/
def step (isClass : String → Bool) (s : Scan) (index : Nat) (i : Instruction)
    (next : Option Instruction) : Except ScanStop Scan :=
  if i.code = .call then
    if next.any (·.code = .storeMap) then .ok s else s.openCall index i.operand
  else if i.isValue then .ok (s.feed isClass i)
  else .ok s

/-- Reads a sequence that starts at position `index`, from its end to its start. -/
def run (isClass : String → Bool) : (index : Nat) → List Instruction → Except ScanStop Scan
  | _, [] => .ok {}
  | index, i :: rest =>
    match run isClass (index + 1) rest with
    | .error stop => .error stop
    | .ok s => s.step isClass index i rest.head?

end Scan

/-- The calls of a sequence with the log of the scan. -/
structure CallSites where
  /-- The calls, the last one first. -/
  calls : List CallExpr
  log : List LogRecord

/-- The calls of a sequence. An unreadable sequence has none; `none` is the result when an arity
cannot be represented. -/
def callSites? (isClass : String → Bool) (ops : List Instruction) : Option CallSites :=
  match Scan.run isClass 0 ops with
  | .ok s => some ⟨s.found.reverse, s.log⟩
  | .error (.unreadable log) => some ⟨[], log⟩
  | .error .oversized => none

end CallerFirst
