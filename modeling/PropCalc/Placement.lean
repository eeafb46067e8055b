import PropCalc.ParseError
/-!
# Balance and placement

Two checks on the tokens of a text that come before the grammar and say more precisely what is wrong:
parentheses have to pair up, and operators and operands have to stand in their places in every group.
-/

namespace PropCalc

/-! ## Balance -/

/-- Follows the depth of nesting and refuses a group that is closed but not open, and groups that
stay open. -/
def checkBalance (ts : List Token) : Except ParseError Unit :=
  go 0 ts
where
  /-- Goes on at the given depth. -/
  go (depth : Nat) : List Token → Except ParseError Unit
    | [] => if depth = 0 then .ok () else .error .unclosed
    | t :: ts =>
      match t.symbol with
      | .lparen => go (depth + 1) ts
      | .rparen =>
        match depth with
        | 0 => .error (.unopened t.offset)
        | d + 1 => go d ts
      | _ => go depth ts

/-! ## Groups -/

namespace Token

/-- Splits the tokens behind an opening parenthesis into the content of its group and what follows
the closing parenthesis; `depth` further groups are open. -/
def splitGroup? (depth : Nat) : List Token → Option (List Token × List Token)
  | [] => none
  | t :: ts =>
    match t.symbol with
    | .lparen => (splitGroup? (depth + 1) ts).map fun (inside, after) => (t :: inside, after)
    | .rparen =>
      match depth with
      | 0 => some ([], ts)
      | d + 1 => (splitGroup? d ts).map fun (inside, after) => (t :: inside, after)
    | _ => (splitGroup? depth ts).map fun (inside, after) => (t :: inside, after)

/-- A group and what follows it are the tokens again, but for the closing parenthesis. -/
theorem length_splitGroup? {depth : Nat} {ts inside after : List Token}
    (h : splitGroup? depth ts = some (inside, after)) :
    inside.length + after.length + 1 = ts.length := by
  induction ts generalizing depth inside after with
  | nil => simp [splitGroup?] at h
  | cons t ts ih =>
    simp only [splitGroup?] at h
    split at h
    · obtain ⟨⟨i, a⟩, hs, he⟩ := Option.map_eq_some_iff.1 h
      cases he
      have := ih hs
      simp only [List.length_cons]
      omega
    · split at h
      · cases h
        simp
      · obtain ⟨⟨i, a⟩, hs, he⟩ := Option.map_eq_some_iff.1 h
        cases he
        have := ih hs
        simp only [List.length_cons]
        omega
    · obtain ⟨⟨i, a⟩, hs, he⟩ := Option.map_eq_some_iff.1 h
      cases he
      have := ih hs
      simp only [List.length_cons]
      omega

end Token

/-! ## Placement -/

/-- What stands at a place within a group. -/
inductive Place where
  | operator (o : Operator) (offset : Nat)
  | letter (c : Char) (offset : Nat)
  | group (offset : Nat)
deriving DecidableEq, Repr

namespace Place

/-- Whether `here` may follow `before`, where `none` is the start of a group. A connective needs an
operand before it; an operand or a negation must not have one. -/
def follows (before : Option Place) (here : Place) : Except ParseError Unit :=
  match here, before with
  | operator (.binary _) _, some (letter ..) => .ok ()
  | operator (.binary _) _, some (group _) => .ok ()
  | operator (.binary c) offset, _ => .error (.noLeftOperand (.binary c) offset)
  | letter c _, some (letter b _) => .error (.runTogether b c)
  | letter _ offset, some (group _) => .error (.missingOperator offset)
  | group offset, some (letter ..) => .error (.missingOperator offset)
  | group offset, some (group _) => .error (.missingOperator offset)
  | operator .not offset, some (letter ..) => .error (.missingOperator offset)
  | operator .not offset, some (group _) => .error (.missingOperator offset)
  | _, _ => .ok ()

/-- Whether a group may end behind `last`: not behind an operator. -/
def ends : Option Place → Except ParseError Unit
  | some (operator o offset) => .error (.noRightOperand o offset)
  | _ => .ok ()

end Place

/-- Checks the rest of a group behind `before`. The content of a nested group is checked before the
place of that group. -/
def checkPlacesAfter (before : Option Place) : List Token → Except ParseError Unit
  | [] => Place.ends before
  | t :: ts =>
    match t.symbol with
    | .lparen =>
      match _h : Token.splitGroup? 0 ts with
      | none => .error .unclosed
      | some (inside, after) => do
        if inside = [] then throw .emptyOperand
        checkPlacesAfter none inside
        Place.follows before (.group t.offset)
        checkPlacesAfter (some (.group t.offset)) after
    | .rparen => .error (.strayClosing t.offset)
    | .operator o => do
      Place.follows before (.operator o t.offset)
      checkPlacesAfter (some (.operator o t.offset)) ts
    | .letter c => do
      Place.follows before (.letter c t.offset)
      checkPlacesAfter (some (.letter c t.offset)) ts
termination_by ts => ts.length
decreasing_by
  · have := Token.length_splitGroup? _h
    simp only [List.length_cons]
    omega
  · have := Token.length_splitGroup? _h
    simp only [List.length_cons]
    omega
  · simp
  · simp

/-- Checks that operators and operands stand in their places, in the whole and in every group. -/
def checkPlacement (ts : List Token) : Except ParseError Unit :=
  if ts = [] then .error .emptyOperand else checkPlacesAfter none ts

end PropCalc
