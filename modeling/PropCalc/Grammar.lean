import PropCalc.Formula
import PropCalc.ParseError
/-!
# The grammar

    expression := expression CONNECTIVE operand | operand
    operand    := NOT operand | "(" expression ")" | LETTER

All connectives bind alike and to the left, and negation binds only the operand behind it. The reader
takes one token after the other and keeps a stack of the groups that are open, so it stops at the
first token with which no expression can go on.
-/

namespace PropCalc.Grammar

/-! ## States of reading -/

/-- A place that waits for an operand: the left side and connective before it, if any, and whether
the negations before it add up to one. -/
structure Slot where
  left? : Option (Formula × Connective)
  negated : Bool
deriving DecidableEq, Repr

namespace Slot

/-- The slot at the start of a group. -/
def start : Slot := ⟨none, false⟩

/-- Puts an operand into the slot. -/
def fill (d : Dialect) (slot : Slot) (operand : Formula) : Formula :=
  let operand := if slot.negated then operand.negate else operand
  match slot.left? with
  | none => operand
  | some (left, c) => .binary left c operand false d

end Slot

/-- How far reading has come. The slots of the enclosing groups are listed innermost first. -/
inductive State where
  /-- An operand has to come next. -/
  | before (slot : Slot) (outer : List Slot)
  /-- The innermost open group reads as this formula so far. -/
  | behind (read : Formula) (outer : List Slot)
deriving DecidableEq, Repr

namespace State

/-- Nothing is read yet. -/
def start : State := before .start []

/-- Takes one symbol, or refuses it when no expression goes on with it. -/
def step? (d : Dialect) : State → Symbol → Option State
  | before slot outer, .operator .not => some (before { slot with negated := !slot.negated } outer)
  | before slot outer, .lparen => some (before .start (slot :: outer))
  | before slot outer, .letter c => some (behind (slot.fill d (.var c.toString false)) outer)
  | behind f outer, .operator (.binary c) => some (before ⟨some (f, c), false⟩ outer)
  | behind f (slot :: outer), .rparen => some (behind (slot.fill d f) outer)
  | _, _ => none

/-- The formula read, if no group is open and no operand is missing. -/
def result? : State → Option Formula
  | behind f [] => some f
  | _ => none

/-- Reads tokens from a state on. -/
def run (d : Dialect) (s : State) : List Token → Except ParseError State
  | [] => .ok s
  | t :: ts =>
    match s.step? d t.symbol with
    | none => .error (.unexpectedToken t.symbol t.offset)
    | some s' => run d s' ts

end State

end Grammar

/-- The formula that a list of tokens reads as. Its joined nodes are marked with the dialect. -/
def Formula.ofTokens (d : Dialect) (ts : List Token) : Except ParseError Formula := do
  let s ← Grammar.State.start.run d ts
  match s.result? with
  | some f => return f
  | none => throw .unexpectedEnd

end PropCalc
