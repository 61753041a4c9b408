import Stencil.Proofs.ParserGrammar

/-!
# What each step of the parser comes to

`outcome` is the result of a parser without the bound on the tokens left over. For each parser an
equation says what it comes to, failures included, in terms of the parsers it calls and of the next
token. The proofs about failures use these and do not unfold a parser again.
-/

namespace Stencil.Parser

/-! ## Outcomes -/

/-- What a parser comes to: a failure, or a result and the tokens left over. -/
abbrev Outcome (α : Type) := Except Failure (α × List Lexeme)

/-- One parser after another. -/
def Outcome.andThen {α β : Type} (x : Outcome α) (next : α → List Lexeme → Outcome β) : Outcome β :=
  x.bind fun r => next r.1 r.2

section Outcome

variable {α β : Type} {p q : List Lexeme → Prop}

/-- A result without the bound on the tokens left over. -/
def outcome (x : Except Failure (α × { rest : List Lexeme // p rest })) : Outcome α :=
  x.map fun r => (r.1, r.2.1)

/-- An outcome that is no failure says what was read and what is left. -/
theorem outcome_eq_ok_iff {x : Except Failure (α × { rest : List Lexeme // p rest })} {a : α}
    {rest : List Lexeme} : outcome x = .ok (a, rest) ↔ Reads x a rest := by
  constructor
  · intro h
    cases x with
    | error failure => cases h
    | ok r =>
      cases h
      exact ⟨r.2.2, rfl⟩
  · rintro ⟨_, rfl⟩
    rfl

/-- The lengths that the parser carries along make no difference to what it does next. -/
theorem outcome_bind {x : Except Failure (α × { rest : List Lexeme // p rest })}
    {f : α × { rest : List Lexeme // p rest } →
      Except Failure (β × { rest : List Lexeme // q rest })}
    {next : α → List Lexeme → Outcome β}
    (h : ∀ a mid hmid, outcome (f (a, ⟨mid, hmid⟩)) = next a mid) :
    outcome (x >>= f) = (outcome x).andThen next := by
  cases x with
  | error failure => rfl
  | ok r => exact h r.1 r.2.1 r.2.2

/-- A parser whose result is handed on with a wider bound. -/
theorem outcome_bind_ok {x : Except Failure (α × { rest : List Lexeme // p rest })}
    {f : α × { rest : List Lexeme // p rest } →
      Except Failure (α × { rest : List Lexeme // q rest })}
    (h : ∀ a mid hmid, outcome (f (a, ⟨mid, hmid⟩)) = .ok (a, mid)) :
    outcome (x >>= f) = outcome x := by
  cases x with
  | error failure => rfl
  | ok r => exact h r.1 r.2.1 r.2.2

end Outcome

variable {ts rest : List Lexeme} {t : Lexeme} {k : Nat} {op : BinaryOp}

/-- A token that is not the expected one is reported where it stands. -/
theorem outcome_expect_cons (token : Token) (t : Lexeme) (rest : List Lexeme) :
    outcome (expect token (t :: rest)) = if t.token = token then .ok (t, rest)
      else .error (.unexpected (rest.length + 1) (.wanted (.token token) t)) := by
  rw [expect]
  split <;> rfl

/-! ## Operators and conditionals -/

/-- What follows the condition of a choice, if it is one. -/
def choiceAfter (cond : Expr) : List Lexeme → Outcome Expr
  | [] => .ok (cond, [])
  | t :: after =>
    if t.token = .question then
      (outcome (conditional after)).andThen fun yes rest₁ =>
      (outcome (expect .colon rest₁)).andThen fun _ rest₂ =>
      (outcome (conditional rest₂)).andThen fun no rest₃ =>
      .ok (.conditional cond yes no, rest₃)
    else .ok (cond, t :: after)

/-- A condition is read first; whether there are branches is seen after it. -/
theorem outcome_conditional (ts : List Lexeme) :
    outcome (conditional ts) = (outcome (binary 6 ts)).andThen choiceAfter := by
  rw [conditional]
  refine outcome_bind fun cond mid h => ?_
  cases mid with
  | nil => rfl
  | cons t after =>
    dsimp only
    rw [choiceAfter]
    split
    · refine outcome_bind fun yes rest₁ h₁ => ?_
      refine outcome_bind fun colon rest₂ h₂ => ?_
      exact outcome_bind fun no rest₃ h₃ => rfl
    · rfl

theorem outcome_binary_zero (ts : List Lexeme) : outcome (binary 0 ts) = outcome (power ts) := by
  rw [binary]

theorem outcome_binary_succ (k : Nat) (ts : List Lexeme) :
    outcome (binary (k + 1) ts) = (outcome (binary k ts)).andThen fun left rest =>
      outcome (operators (k + 1) left rest) := by
  rw [binary]
  refine outcome_bind fun left mid h => ?_
  exact outcome_bind_ok fun e rest h' => rfl

theorem outcome_operators_none {left : Expr} (h : operatorAt? k ts = none) :
    outcome (operators k left ts) = .ok (left, ts) := by
  rw [operators]
  split
  · rfl
  · rename_i hop
    cases h.symm.trans hop

/-- An operator groups what was read to its left before the next one is looked for. -/
theorem outcome_operators_some {left : Expr} (h : operatorAt? k ts = some (op, rest)) :
    outcome (operators k left ts) = (outcome (binary (k - 1) rest)).andThen fun right mid =>
      outcome (operators k (.binary op left right) mid) := by
  rw [operators]
  split
  · rename_i hop
    cases h.symm.trans hop
  · rename_i op' rest' hop
    cases h.symm.trans hop
    refine outcome_bind fun right mid h => ?_
    exact outcome_bind_ok fun e rest h' => rfl

/-- What follows the base of a power, if it is one. -/
def exponentAfter (base : Expr) : List Lexeme → Outcome Expr
  | [] => .ok (base, [])
  | t :: after =>
    if t.token = .starStar then
      (outcome (power after)).andThen fun exponent rest => .ok (.binary .pow base exponent, rest)
    else .ok (base, t :: after)

theorem outcome_power (ts : List Lexeme) :
    outcome (power ts) = (outcome (unary ts)).andThen exponentAfter := by
  rw [power]
  refine outcome_bind fun base mid h => ?_
  cases mid with
  | nil => rfl
  | cons t after =>
    dsimp only
    rw [exponentAfter]
    split
    · exact outcome_bind fun exponent mid' h' => rfl
    · rfl

/-- Any number of minuses may stand in a row. -/
theorem outcome_unary_minus (ht : t.token = .minus) (rest : List Lexeme) :
    outcome (unary (t :: rest))
      = (outcome (unary rest)).andThen fun operand rest' => .ok (negate operand, rest') := by
  rw [unary, if_pos ht]
  exact outcome_bind fun operand mid h => rfl

theorem outcome_unary_other (ht : t.token ≠ .minus) (rest : List Lexeme) :
    outcome (unary (t :: rest)) = outcome (primary (t :: rest)) := by
  rw [unary, if_neg ht]

/-! ## Atoms -/

/-- What follows the bracket of an index. -/
def indexAfter : List Lexeme → Outcome (Option UInt64)
  | [] => .error (.ended (.token .number))
  | n :: after =>
    if n.token = .number then
      match Text.readIndex n.text.toList with
      | some i => (outcome (expect .bracketClose after)).andThen fun _ rest => .ok (some i, rest)
      | none => .error (.unexpected (after.length + 1) (.notAnIndex n.text))
    else .error (.unexpected (after.length + 1) (.wanted (.token .number) n))

theorem outcome_index_bracket (ht : t.token = .bracketOpen) (rest : List Lexeme) :
    outcome (index? (t :: rest)) = indexAfter rest := by
  rw [index?, if_pos ht]
  cases rest with
  | nil => rfl
  | cons n after =>
    rw [indexAfter, expect]
    split
    · -- The bind of a token that is there reduces, but `hi` has to be rewritten in between.
      cases hi : Text.readIndex n.text.toList with
      | none => simp [hi, bind, Except.bind, outcome, Except.map]
      | some i =>
        cases hclose : expect .bracketClose after <;>
          simp [hi, hclose, bind, Except.bind, outcome, Outcome.andThen, Except.map]
    · rfl

theorem outcome_index_other (ht : t.token ≠ .bracketOpen) (rest : List Lexeme) :
    outcome (index? (t :: rest)) = .ok (none, t :: rest) := by
  rw [index?, if_neg ht]
  rfl

/-- A selected property is an index, if there is one, a dot and a name. -/
theorem outcome_selected (target : Target) (ts : List Lexeme) :
    outcome (selected target ts) = (outcome (index? ts)).andThen fun index rest =>
      (outcome (expect .dot rest)).andThen fun _ rest' =>
      (outcome (expect .ident rest')).andThen fun name rest'' =>
      .ok (.property (some ⟨target, index⟩) name.text, rest'') := by
  rw [selected]
  refine outcome_bind fun index rest h => ?_
  refine outcome_bind fun dot rest' h' => ?_
  exact outcome_bind fun name rest'' h'' => rfl

theorem outcome_named_group (name : String) (ht : t.token = .parenOpen) (rest : List Lexeme) :
    outcome (named name (t :: rest)) = (outcome (expect .ident rest)).andThen fun member after =>
      (outcome (expect .parenClose after)).andThen fun _ after' =>
      .ok (.var name member.text, after') := by
  rw [named, if_pos ht]
  refine outcome_bind fun member after h => ?_
  exact outcome_bind fun close after' h' => rfl

/-- A name goes on as a selector where a bracket follows, or a dot and another name. -/
theorem outcome_named_selected (name : String) (hparen : t.token ≠ .parenOpen)
    (ht : t.token = .bracketOpen ∨
      (t.token = .dot ∧ rest.head?.map Lexeme.token = some .ident)) :
    outcome (named name (t :: rest)) = outcome (selected (.tag (Text.lower name)) (t :: rest)) := by
  rw [named, if_neg hparen, if_pos ht]
  exact outcome_bind_ok fun e after h => rfl

/-- In all other cases a name is a property, and what follows it is left. -/
theorem outcome_named_bare (name : String) (hparen : t.token ≠ .parenOpen)
    (ht : ¬ (t.token = .bracketOpen ∨
      (t.token = .dot ∧ rest.head?.map Lexeme.token = some .ident))) :
    outcome (named name (t :: rest)) = .ok (.property none name, t :: rest) := by
  rw [named, if_neg hparen, if_neg ht]
  rfl

theorem outcome_primary_group (ht : t.token = .parenOpen) (rest : List Lexeme) :
    outcome (primary (t :: rest)) = (outcome (conditional rest)).andThen fun e after =>
      (outcome (expect .parenClose after)).andThen fun _ after' => .ok (e, after') := by
  simp only [primary, ht]
  refine outcome_bind fun e after h => ?_
  exact outcome_bind fun close after' h' => rfl

/-- A name behind a sigil, and what follows it. The sigil says how the name addresses an element. -/
theorem outcome_primary_sigil {target : String → Target}
    (ht : (t.token = .hash ∧ target = .id) ∨ (t.token = .dot ∧ target = .className))
    (rest : List Lexeme) :
    outcome (primary (t :: rest)) = (outcome (expect .ident rest)).andThen fun name after =>
      outcome (selected (target name.text) after) := by
  rcases ht with ⟨ht, rfl⟩ | ⟨ht, rfl⟩
  all_goals
    simp only [primary, ht]
    refine outcome_bind fun name after h => ?_
    exact outcome_bind_ok fun e after' h' => rfl

theorem outcome_primary_ident (ht : t.token = .ident) (rest : List Lexeme) :
    outcome (primary (t :: rest)) = outcome (named t.text rest) := by
  simp only [primary, ht]
  exact outcome_bind_ok fun e after h => rfl

/-- The tokens that are a value by themselves, and those that no value starts with. -/
theorem outcome_primary_other (hparen : t.token ≠ .parenOpen) (hhash : t.token ≠ .hash)
    (hdot : t.token ≠ .dot) (hident : t.token ≠ .ident) :
    (∃ e, ∀ rest, outcome (primary (t :: rest)) = .ok (e, rest)) ∨
      ∀ rest, outcome (primary (t :: rest))
        = .error (.unexpected (rest.length + 1) (.wanted .value t)) := by
  cases ht : t.token
  case number => exact Or.inl ⟨dimension t.text, fun rest => by simp only [primary, ht]; rfl⟩
  case doubleQuoted =>
    exact Or.inl ⟨.literal (unquoted t.text), fun rest => by simp only [primary, ht]; rfl⟩
  case singleQuoted =>
    exact Or.inl ⟨.literal (unquoted t.text), fun rest => by simp only [primary, ht]; rfl⟩
  case parenOpen => exact absurd ht hparen
  case hash => exact absurd ht hhash
  case dot => exact absurd ht hdot
  case ident => exact absurd ht hident
  all_goals exact Or.inr fun rest => by simp only [primary, ht]; rfl

end Stencil.Parser
