import Stencil.Expr
import Stencil.Expr.Token

/-!
# Reading property values

A recursive-descent parser over tokens. From loosest to tightest:

* `cond ? yes : no`, associating to the right
* the binary operators of levels 6 to 1 (`||`, `&&`, equality, order, sum, product), each level
  associating to the left
* `**`, associating to the right
* unary minus
* a number, a string, a value in parentheses, `Group(var)`, a property with or without a selector

## Termination

No fuel. Every parser returns the tokens it left over together with a proof that there are fewer of
them, and a parser that has not consumed a token only calls tighter ones. The measure is sixteen times
the number of tokens, plus a number for the tightness.
-/

namespace Stencil

/-! ## Failures -/

/-- What the parser was looking for. -/
inductive Wanted where
  | value
  | token (token : Token)
deriving DecidableEq, Repr

def Wanted.text : Wanted → String
  | .value => "expected a value"
  | .token t => "expected " ++ t.name

/-- What is wrong with a token. -/
inductive Complaint where
  /-- The value was complete before it. -/
  | trailing (found : Lexeme)
  | wanted (wanted : Wanted) (found : Lexeme)
  /-- A number stands where an index should, and is none. -/
  | notAnIndex (text : String)
deriving DecidableEq, Repr

/-- A token as messages show it: its name, and its text in quotes. -/
def Lexeme.shown (l : Lexeme) : String := l.token.name ++ " '" ++ l.text ++ "'"

def Complaint.text : Complaint → String
  | .trailing found => "trailing " ++ found.shown
  | .wanted w found => w.text ++ ", got " ++ found.shown
  | .notAnIndex text => "expected an element index, got '" ++ text ++ "'"

/-- Why a text is no property value. -/
inductive ParseError where
  /-- The token at a position does not fit. -/
  | unexpectedToken (position : Nat) (complaint : Complaint)
  /-- The tokens ended too early. -/
  | unexpectedEnd (wanted : Wanted)
  /-- No token starts at a byte. -/
  | invalidCharacter (offset : Nat)
  | empty
deriving DecidableEq, Repr

def ParseError.message : ParseError → String
  | .unexpectedToken position complaint =>
    "unexpected token at position " ++ toString position ++ ": " ++ complaint.text
  | .unexpectedEnd wanted => "unexpected end of input: " ++ wanted.text
  | .invalidCharacter offset => "unrecognized character at byte " ++ toString offset
  | .empty => "empty value"

/-- A failure on the way. A token that does not fit is known by how many tokens there were from it
on. -/
inductive Failure where
  | unexpected (remaining : Nat) (complaint : Complaint)
  | ended (wanted : Wanted)
deriving DecidableEq, Repr

/-- The position that a failure has among `total` tokens. -/
def Failure.toError (total : Nat) : Failure → ParseError
  | .unexpected remaining complaint => .unexpectedToken (total - remaining) complaint
  | .ended wanted => .unexpectedEnd wanted

namespace Parser

/-! ## Pieces -/

/-- What is left over after fewer than `n` tokens are. -/
abbrev Rest (n : Nat) := { rest : List Lexeme // rest.length < n }

/-- A result and the tokens left over, fewer than `n`. -/
abbrev Parsed (α : Type) (n : Nat) := Except Failure (α × Rest n)

/-- Widens the bound on the tokens left over. -/
def Rest.widen {m n : Nat} (r : Rest m) (h : m ≤ n) : Rest n := ⟨r.1, Nat.lt_of_lt_of_le r.2 h⟩

/-- The next token, which has to be of a given kind. -/
def expect (token : Token) (ts : List Lexeme) : Parsed Lexeme ts.length :=
  match ts with
  | [] => .error (.ended (.token token))
  | t :: rest =>
    if t.token = token then .ok (t, ⟨rest, Nat.lt_succ_self _⟩)
    else .error (.unexpected (rest.length + 1) (.wanted (.token token) t))

/-- Reads decimal digits with at most one point among them. -/
def readDecimal (cs : List Char) : Option Float :=
  let whole := cs.takeWhile Char.isDigit
  let decimals? := match cs.dropWhile Char.isDigit with
    | [] => some []
    | '.' :: rest => if rest.all Char.isDigit then some rest else none
    | _ => none
  decimals?.bind fun decimals =>
    if whole = [] ∧ decimals = [] then none
    else some (Float.ofScientific (Nat.ofDigitChars 10 (whole ++ decimals) 0) true decimals.length)

/-- The expression of a number token: the digits, and the unit behind them. -/
def dimension (text : String) : Expr :=
  let isDecimal (c : Char) := c.isDigit || c == '.'
  let cs := text.toList
  .withUnit ((readDecimal (cs.takeWhile isDecimal)).getD 0) (String.ofList (cs.dropWhile isDecimal))

/-- The text of a string token between its quotes. -/
def unquoted (text : String) : String := String.ofList text.toList.tail.dropLast

/-- The binary operator that a token stands for. -/
def operator? : Token → Option BinaryOp
  | .plus => some .add | .minus => some .sub
  | .star => some .mul | .slash => some .div | .percent => some .rem
  | .starStar => some .pow
  | .greater => some .gt | .greaterEq => some .ge | .less => some .lt | .lessEq => some .le
  | .eqEq => some .eq | .notEq => some .ne
  | .andAnd => some .and | .orOr => some .or
  | _ => none

/-- How loosely an operator binds. -/
def level : BinaryOp → Nat
  | .pow => 0
  | .mul | .div | .rem => 1
  | .add | .sub => 2
  | .gt | .ge | .lt | .le => 3
  | .eq | .ne => 4
  | .and => 5
  | .or => 6

/-- The operator of a given level that the tokens start with, and the tokens behind it. -/
def operatorAt? (k : Nat) : List Lexeme → Option (BinaryOp × List Lexeme)
  | [] => none
  | t :: rest =>
    match operator? t.token with
    | some op => if level op = k then some (op, rest) else none
    | none => none

theorem operatorAt?_length {k : Nat} {ts rest : List Lexeme} {op : BinaryOp}
    (h : operatorAt? k ts = some (op, rest)) : rest.length < ts.length := by
  unfold operatorAt? at h
  split at h
  · simp at h
  · split at h
    · split at h
      · simp only [Option.some.injEq, Prod.mk.injEq] at h
        simp [h.2]
      · simp at h
    · simp at h

/-- A minus in front of an operand: a number is negated, anything else is taken from zero. -/
def negate : Expr → Expr
  | .dimension value unit => .dimension (-value) unit
  | operand => .binary .sub (.number 0) operand

/-- Reads `[n]`, if the tokens start with a bracket. -/
def index? (ts : List Lexeme) :
    Except Failure (Option UInt64 × { rest : List Lexeme // rest.length ≤ ts.length }) :=
  match ts with
  | t :: rest =>
    if t.token = .bracketOpen then do
      let (number, after) ← expect .number rest
      let n ← match Text.readIndex number.text.toList with
        | some n => .ok n
        | none => .error (.unexpected rest.length (.notAnIndex number.text))
      let (_, after') ← expect .bracketClose after.1
      .ok (some n, ⟨after'.1, by
        have h := after.2; have h' := after'.2; simp only [List.length_cons]; omega⟩)
    else .ok (none, ⟨t :: rest, Nat.le_refl _⟩)
  | [] => .ok (none, ⟨[], Nat.le_refl _⟩)

/-- Reads `[n]? . property` behind a selector. -/
def selected (target : Target) (ts : List Lexeme) : Parsed Expr ts.length := do
  let (index, rest) ← index? ts
  let (_, rest') ← expect .dot rest.1
  let (name, rest'') ← expect .ident rest'.1
  .ok (.property (some { target, index }) name.text,
    rest''.widen (Nat.le_trans (Nat.le_of_lt rest'.2) rest.2))

/-- Reads what follows an identifier: `Group(var)`, `tag.prop`, `tag[n].prop`, or nothing, in which
case the identifier is a property. -/
def named (name : String) (ts : List Lexeme) :
    Except Failure (Expr × { rest : List Lexeme // rest.length ≤ ts.length }) :=
  match ts with
  | t :: rest =>
    if t.token = .parenOpen then do
      let (member, after) ← expect .ident rest
      let (_, after') ← expect .parenClose after.1
      .ok (.var name member.text, ⟨after'.1, by
        have h := after.2; have h' := after'.2; simp only [List.length_cons]; omega⟩)
    else if t.token = .bracketOpen
        ∨ (t.token = .dot ∧ (rest.head?.map Lexeme.token) = some .ident) then do
      let (e, after) ← selected (.tag (Text.lower name)) (t :: rest)
      .ok (e, ⟨after.1, Nat.le_of_lt after.2⟩)
    else .ok (.property none name, ⟨t :: rest, Nat.le_refl _⟩)
  | [] => .ok (.property none name, ⟨[], Nat.le_refl _⟩)

/-! ## Levels -/

mutual

/-- `cond ? yes : no`, or a value without a question mark. -/
def conditional (ts : List Lexeme) : Parsed Expr ts.length := do
  let (cond, rest) ← binary 6 ts
  match rest with
  | ⟨[], h⟩ => .ok (cond, ⟨[], h⟩)
  | ⟨t :: after, h⟩ =>
    if t.token = .question then
      let (yes, rest₁) ← conditional after
      let (_, rest₂) ← expect .colon rest₁.1
      let (no, rest₃) ← conditional rest₂.1
      .ok (.conditional cond yes no, rest₃.widen (by
        have h₁ := rest₁.2; have h₂ := rest₂.2; simp only [List.length_cons] at h; omega))
    else .ok (cond, ⟨t :: after, h⟩)
termination_by 16 * ts.length + 15
decreasing_by
  · omega
  · simp only [List.length_cons] at h; omega
  · have _h₁ := rest₁.2; have _h₂ := rest₂.2; simp only [List.length_cons] at h; omega

/-- Operands joined by operators of level `k` or tighter. -/
def binary (k : Nat) (ts : List Lexeme) : Parsed Expr ts.length :=
  match k with
  | 0 => power ts
  | k + 1 => do
    let (left, rest) ← binary k ts
    let (e, rest') ← operators (k + 1) left rest.1
    .ok (e, ⟨rest'.1, Nat.lt_of_le_of_lt rest'.2 rest.2⟩)
termination_by 16 * ts.length + k + 5
decreasing_by
  · omega
  · omega
  · have _h := rest.2; omega

/-- The operators of level `k` that follow a left operand, with their right operands. -/
def operators (k : Nat) (left : Expr) (ts : List Lexeme) :
    Except Failure (Expr × { rest : List Lexeme // rest.length ≤ ts.length }) :=
  match hop : operatorAt? k ts with
  | none => .ok (left, ⟨ts, Nat.le_refl _⟩)
  | some (op, rest) => do
    let (right, after) ← binary (k - 1) rest
    let (e, rest') ← operators k (.binary op left right) after.1
    .ok (e, ⟨rest'.1, by
      have h := operatorAt?_length hop; have h₁ := after.2; have h₂ := rest'.2; omega⟩)
termination_by 16 * ts.length + k
decreasing_by
  · have h := operatorAt?_length hop; omega
  · have h := operatorAt?_length hop; have _h₁ := after.2; omega

/-- A base and its exponent. -/
def power (ts : List Lexeme) : Parsed Expr ts.length := do
  let (base, rest) ← unary ts
  match rest with
  | ⟨[], h⟩ => .ok (base, ⟨[], h⟩)
  | ⟨t :: after, h⟩ =>
    if t.token = .starStar then
      let (exponent, rest') ← power after
      .ok (.binary .pow base exponent, rest'.widen (by simp only [List.length_cons] at h; omega))
    else .ok (base, ⟨t :: after, h⟩)
termination_by 16 * ts.length + 4
decreasing_by
  · omega
  · simp only [List.length_cons] at h; omega

/-- An operand with any number of minus signs. -/
def unary (ts : List Lexeme) : Parsed Expr ts.length :=
  match ts with
  | [] => primary []
  | t :: rest =>
    if t.token = .minus then do
      let (operand, rest') ← unary rest
      .ok (negate operand, rest'.widen (Nat.le_succ _))
    else primary (t :: rest)
termination_by 16 * ts.length + 3
decreasing_by
  all_goals simp only [List.length_cons, List.length_nil]
  all_goals omega

/-- A single value. -/
def primary (ts : List Lexeme) : Parsed Expr ts.length :=
  match ts with
  | [] => .error (.ended .value)
  | t :: rest =>
    match t.token with
    | .number => .ok (dimension t.text, ⟨rest, Nat.lt_succ_self _⟩)
    | .doubleQuoted | .singleQuoted => .ok (.literal (unquoted t.text), ⟨rest, Nat.lt_succ_self _⟩)
    | .parenOpen => do
      let (e, after) ← conditional rest
      let (_, after') ← expect .parenClose after.1
      .ok (e, after'.widen (Nat.le_succ_of_le (Nat.le_of_lt after.2)))
    | .hash => do
      let (name, after) ← expect .ident rest
      let (e, after') ← selected (.id name.text) after.1
      .ok (e, after'.widen (Nat.le_succ_of_le (Nat.le_of_lt after.2)))
    | .dot => do
      let (name, after) ← expect .ident rest
      let (e, after') ← selected (.className name.text) after.1
      .ok (e, after'.widen (Nat.le_succ_of_le (Nat.le_of_lt after.2)))
    | .ident => do
      let (e, after) ← named t.text rest
      .ok (e, ⟨after.1, Nat.lt_succ_of_le after.2⟩)
    | _ => .error (.unexpected (rest.length + 1) (.wanted .value t))
termination_by 16 * ts.length + 2
decreasing_by
  simp only [List.length_cons]; omega

end

/-- Reads a value that takes up all the tokens. -/
def complete (ts : List Lexeme) : Except ParseError Expr :=
  match conditional ts with
  | .error failure => .error (failure.toError ts.length)
  | .ok (e, ⟨[], _⟩) => .ok e
  | .ok (_, ⟨t :: rest, _⟩) =>
    .error (.unexpectedToken (ts.length - (rest.length + 1)) (.trailing t))

end Parser

/-- Reads a property value. -/
def Expr.parse (s : String) : Except ParseError Expr :=
  match tokenize s with
  | .error offset => .error (.invalidCharacter offset)
  | .ok [] => .error .empty
  | .ok ts => Parser.complete ts

/-- Reads a property value, and keeps a text that is none as a literal without the blanks around
it. -/
def Expr.parseOrLiteral (s : String) : Expr :=
  match Expr.parse s with
  | .ok e => e
  | .error _ => .literal (Text.trimmed s)

end Stencil
