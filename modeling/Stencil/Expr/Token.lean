/-!
# Tokens of a property value

A property value is read as a sequence of tokens with blanks between them. At each place the longest
token wins: `**` before `*`, `50%` as one number, and `10.px` as `10`, `.`, `px`, since a point
without a digit behind it is no part of a number.

* `Token.next?` is the longest token at the start of a text
* `tokenize` splits a whole text, or gives the byte at which no token starts

`tokenize` stops because a token is never empty (`next?_rest_length`).
-/

namespace Stencil

/-! ## Tokens -/

inductive Token where
  | starStar | greaterEq | lessEq | eqEq | notEq | andAnd | orOr
  | number | doubleQuoted | singleQuoted | ident
  | plus | minus | star | slash | percent | greater | less | question | colon
  | parenOpen | parenClose | bracketOpen | bracketClose | dot | hash
deriving DecidableEq, Repr

/-- The name of a token in messages. -/
def Token.name : Token → String
  | .starStar => "StarStar" | .greaterEq => "GreaterEq" | .lessEq => "LessEq" | .eqEq => "EqEq"
  | .notEq => "NotEq" | .andAnd => "AndAnd" | .orOr => "OrOr"
  | .number => "Number" | .doubleQuoted => "StringLiteral" | .singleQuoted => "StringLiteralSingle"
  | .ident => "Ident"
  | .plus => "Plus" | .minus => "Minus" | .star => "Star" | .slash => "Slash"
  | .percent => "Percent" | .greater => "Greater" | .less => "Less" | .question => "Question"
  | .colon => "Colon" | .parenOpen => "ParenOpen" | .parenClose => "ParenClose"
  | .bracketOpen => "BracketOpen" | .bracketClose => "BracketClose" | .dot => "Dot"
  | .hash => "Hash"

/-- A token with the text it stands for and the byte at which that text starts. -/
structure Lexeme where
  token : Token
  text : String
  offset : Nat
deriving DecidableEq, Repr

namespace Token

/-! ## Character classes -/

/-- The characters skipped between tokens. -/
def isSkipped (c : Char) : Bool :=
  c == ' ' || c == '\t' || c == '\n' || c == '\r' || c == '\x0c'

def isIdentStart (c : Char) : Bool := c.isAlpha || c == '_'

def isIdentRest (c : Char) : Bool := c.isAlphanum || c == '_' || c == '-'

def doubleQuote : Char := '\x22'

def singleQuote : Char := '\x27'

/-! ## Longest match, class by class -/

/-- The operators and punctuation marks, those of two characters first. -/
def symbols : List (List Char × Token) :=
  [(['*', '*'], .starStar), (['>', '='], .greaterEq), (['<', '='], .lessEq), (['=', '='], .eqEq),
   (['!', '='], .notEq), (['&', '&'], .andAnd), (['|', '|'], .orOr),
   (['+'], .plus), (['-'], .minus), (['*'], .star), (['/'], .slash), (['%'], .percent),
   (['>'], .greater), (['<'], .less), (['?'], .question), ([':'], .colon),
   (['('], .parenOpen), ([')'], .parenClose), (['['], .bracketOpen), ([']'], .bracketClose),
   (['.'], .dot), (['#'], .hash)]

/-- The longest operator or punctuation mark at the start of a text, with its length. -/
def symbol? (cs : List Char) : Option (Token × Nat) :=
  (symbols.find? fun s => s.1.isPrefixOf cs).map fun s => (s.2, s.1.length)

/-- The length of the longest number at the start of a text that starts with a digit: digits, a point
with digits behind it if there is one, and a unit, `%` or letters, if there is one. -/
def numberLength (cs : List Char) : Nat :=
  let whole := (cs.takeWhile Char.isDigit).length
  let decimals := match cs.drop whole with
    | '.' :: rest =>
      let n := (rest.takeWhile Char.isDigit).length
      if n = 0 then 0 else n + 1
    | _ => 0
  let unit := match cs.drop (whole + decimals) with
    | '%' :: _ => 1
    | rest => (rest.takeWhile Char.isAlpha).length
  whole + decimals + unit

/-- The length of the string at the start of a text that starts with a quote. Without a closing
quote there is none. -/
def quotedLength? (quote : Char) (rest : List Char) : Option Nat :=
  let body := (rest.takeWhile (· != quote)).length
  if body < rest.length then some (body + 2) else none

/-- The kind and the length of the longest token at the start of a text. -/
def match? : List Char → Option (Token × Nat)
  | [] => none
  | c :: rest =>
    if c.isDigit then some (.number, numberLength (c :: rest))
    else if isIdentStart c then some (.ident, 1 + (rest.takeWhile isIdentRest).length)
    else if c == doubleQuote then (quotedLength? c rest).map (.doubleQuoted, ·)
    else if c == singleQuote then (quotedLength? c rest).map (.singleQuoted, ·)
    else symbol? (c :: rest)

/-- The longest token at the start of a text, what it covers, and what follows. -/
def next? (cs : List Char) : Option (Token × List Char × List Char) :=
  (match? cs).map fun (t, n) => (t, cs.take n, cs.drop n)

/-! ## A token covers at least one character -/

theorem symbol?_pos {cs : List Char} {t : Token} {n : Nat} (h : symbol? cs = some (t, n)) :
    0 < n := by
  obtain ⟨s, hs, he⟩ := Option.map_eq_some_iff.mp h
  have hall : ∀ s ∈ symbols, 0 < s.1.length := by decide
  simp only [Prod.mk.injEq] at he
  rw [← he.2]
  exact hall s (List.mem_of_find?_eq_some hs)

theorem numberLength_pos {c : Char} {rest : List Char} (h : c.isDigit) :
    0 < numberLength (c :: rest) := by
  simp only [numberLength, List.takeWhile_cons, h, if_true, List.length_cons]
  omega

theorem quotedLength?_pos {quote : Char} {rest : List Char} {n : Nat}
    (h : quotedLength? quote rest = some n) : 0 < n := by
  simp only [quotedLength?, Option.ite_none_right_eq_some, Option.some.injEq] at h
  omega

theorem match?_pos {cs : List Char} {t : Token} {n : Nat} (h : match? cs = some (t, n)) :
    0 < n := by
  unfold match? at h
  split at h
  · simp at h
  · rename_i c rest
    split at h
    · rename_i hd
      simp only [Option.some.injEq, Prod.mk.injEq] at h
      rw [← h.2]
      exact numberLength_pos hd
    · split at h
      · simp only [Option.some.injEq, Prod.mk.injEq] at h
        omega
      · split at h
        · obtain ⟨k, hk, he⟩ := Option.map_eq_some_iff.mp h
          have hpos := quotedLength?_pos hk
          simp only [Prod.mk.injEq] at he
          omega
        · split at h
          · obtain ⟨k, hk, he⟩ := Option.map_eq_some_iff.mp h
            have hpos := quotedLength?_pos hk
            simp only [Prod.mk.injEq] at he
            omega
          · exact symbol?_pos h

theorem next?_rest_length {cs text rest : List Char} {t : Token}
    (h : next? cs = some (t, text, rest)) : rest.length < cs.length := by
  obtain ⟨⟨t', n⟩, hm, he⟩ := Option.map_eq_some_iff.mp h
  simp only [Prod.mk.injEq] at he
  have hn := match?_pos hm
  have hne : cs ≠ [] := by
    intro hnil
    rw [hnil] at hm
    simp [match?] at hm
  have hlen := List.length_pos_iff.mpr hne
  rw [← he.2.2, List.length_drop]
  omega

end Token

/-! ## Whole texts -/

/-- The tokens of a text whose first character is at byte `offset`, or the byte of the first
character that is neither skipped nor the start of a token. -/
def tokenizeFrom (offset : Nat) (cs : List Char) : Except Nat (List Lexeme) :=
  match cs with
  | [] => .ok []
  | c :: rest =>
    if Token.isSkipped c then tokenizeFrom (offset + c.utf8Size) rest
    else match _h : Token.next? (c :: rest) with
      | none => .error offset
      | some (token, covered, after) => do
        let text := String.ofList covered
        let more ← tokenizeFrom (offset + text.utf8ByteSize) after
        .ok ({ token, text, offset } :: more)
termination_by cs.length
decreasing_by
  · simp
  · exact Token.next?_rest_length _h

/-- The tokens of a property value. -/
def tokenize (s : String) : Except Nat (List Lexeme) := tokenizeFrom 0 s.toList

end Stencil
