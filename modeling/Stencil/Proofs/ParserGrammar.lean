import Mathlib.Data.List.Basic
import Stencil.Proofs.ParserSteps

/-!
# The parser accepts the grammar

## Main results

* `Reads.derives_conditional`: the tokens that the parser takes are a phrase, with the value it
  returns.
* `Derives.parses`: a phrase in front of tokens that it does not go on with is read to its end.
* `complete_iff_derives`: all tokens are read as a value exactly if they are a phrase with that
  value, and a list of tokens has one value at most.

The parser is greedy: it takes an operator that follows wherever it can. A phrase is therefore read
to its end only if what comes after it cannot belong to it. `Ends` is that condition on the next
token, by how loose a phrase has to be in order to go on with the token (`reach`).
-/

namespace Stencil.Parser

variable {ts rest : List Lexeme} {e : Expr}

/-! ## What is read is a phrase -/

theorem Reads.length_lt {α : Type} {n : Nat} {x : Parsed α n} {a : α} (h : Reads x a rest) :
    rest.length < n := by
  obtain ⟨h, -⟩ := h
  exact h

/-- The two rules for a minus, one for numbers and one for all else, as the parser joins them. -/
theorem derives_negate {t : Lexeme} (ht : t.token = .minus) (h : Derives .unary ts e) :
    Derives .unary (t :: ts) (negate e) := by
  cases e with
  | dimension value unit => exact .negative ht h
  | _ => exact .subtracted ht h nofun

-- By the parser's own measure. Each step keeps the equation for the tokens taken as a hypothesis,
-- since the recursive calls need the lengths of both sides.
mutual

/-- What is read as a conditional is one. -/
theorem Reads.derives_conditional {ts rest : List Lexeme} {e : Expr}
    (h : Reads (conditional ts) e rest) :
    ∃ used, ts = used ++ rest ∧ Derives .conditional used e := by
  obtain ⟨cond, mid, hb, hrest⟩ := reads_conditional.mp h
  have hmid := hb.length_lt
  obtain ⟨cs, hts, hcond⟩ := hb.derives_binary
  rcases hrest with ⟨-, rfl, rfl⟩ | ⟨q, after, yes, c, rest₂, no, hq, hquestion, hy, hc, hn, rfl⟩
  · exact ⟨cs, hts, .loosest hcond⟩
  · have hafter : after.length < mid.length := hq ▸ Nat.lt_succ_self _
    have hrest₂ : rest₂.length + 1 < after.length := hy.length_lt
    obtain ⟨ys, hys, hyes⟩ := hy.derives_conditional
    obtain ⟨ns, hns, hno⟩ := hn.derives_conditional
    refine ⟨cs ++ q :: (ys ++ c :: ns), ?_, .choice hcond hquestion hyes hc hno⟩
    rw [hts, hq, hys, hns]
    simp
termination_by 16 * ts.length + 15

theorem Reads.derives_binary {k : Nat} {ts rest : List Lexeme} {e : Expr}
    (h : Reads (binary k ts) e rest) : ∃ used, ts = used ++ rest ∧ Derives (.binary k) used e := by
  cases k with
  | zero =>
    obtain ⟨used, hts, hp⟩ := (reads_binary_zero.mp h).derives_power
    exact ⟨used, hts, .tightest hp⟩
  | succ k =>
    obtain ⟨left, mid, hl, ho⟩ := reads_binary_succ.mp h
    have hmid := hl.length_lt
    obtain ⟨ls, hts, hleft⟩ := hl.derives_binary
    obtain ⟨used, hused, he⟩ := ho.derives_operators (.tighter hleft)
    exact ⟨ls ++ used, by rw [hts, hused, List.append_assoc], he⟩
termination_by 16 * ts.length + k + 5

/-- The operators that follow a left operand make a phrase with it. -/
theorem Reads.derives_operators {k : Nat} {left : Expr} {ls ts rest : List Lexeme} {e : Expr}
    (h : Reads (operators (k + 1) left ts) e rest) (hleft : Derives (.binary (k + 1)) ls left) :
    ∃ used, ts = used ++ rest ∧ Derives (.binary (k + 1)) (ls ++ used) e := by
  rcases reads_operators.mp h with ⟨-, rfl, rfl⟩ | ⟨op, after, right, mid, hop, hr, ho⟩
  · exact ⟨[], rfl, by rwa [List.append_nil]⟩
  · have hafter := operatorAt?_length hop
    have hmid := hr.length_lt
    obtain ⟨t, hts, ht⟩ := operatorAt?_eq_some_iff.mp hop
    obtain ⟨rs, hrs, hright⟩ := hr.derives_binary
    obtain ⟨used, hused, he⟩ := ho.derives_operators (.infixed hleft ht hright)
    refine ⟨t :: rs ++ used, ?_, by simpa using he⟩
    rw [hts, hrs, hused]
    simp
termination_by 16 * ts.length + k + 1

/-- A power has a unary phrase as its base and a power as its exponent. -/
theorem Reads.derives_power {ts rest : List Lexeme} {e : Expr} (h : Reads (power ts) e rest) :
    ∃ used, ts = used ++ rest ∧ Derives .power used e := by
  obtain ⟨base, mid, hb, hrest⟩ := reads_power.mp h
  have hmid := hb.length_lt
  obtain ⟨bs, hts, hbase⟩ := hb.derives_unary
  rcases hrest with ⟨-, rfl, rfl⟩ | ⟨t, after, exponent, ht, hstar, he, rfl⟩
  · exact ⟨bs, hts, .base hbase⟩
  · have hafter : after.length < mid.length := ht ▸ Nat.lt_succ_self _
    obtain ⟨es, hes, hexp⟩ := he.derives_power
    refine ⟨bs ++ t :: es, ?_, .raised hbase hstar hexp⟩
    rw [hts, ht, hes]
    simp
termination_by 16 * ts.length + 4

theorem Reads.derives_unary {ts rest : List Lexeme} {e : Expr} (h : Reads (unary ts) e rest) :
    ∃ used, ts = used ++ rest ∧ Derives .unary used e := by
  rcases reads_unary.mp h with ⟨t, after, operand, hts, ht, ho, rfl⟩ | hp
  · have hafter : after.length < ts.length := hts ▸ Nat.lt_succ_self _
    obtain ⟨used, hused, hoperand⟩ := ho.derives_unary
    exact ⟨t :: used, by rw [hts, hused, List.cons_append], derives_negate ht hoperand⟩
  · obtain ⟨used, hts, hprimary⟩ := hp.derives_primary
    exact ⟨used, hts, .operand hprimary⟩
termination_by 16 * ts.length + 3

/-- What is read as a primary phrase is one of the grammar, with the tokens that were used. -/
theorem Reads.derives_primary {ts rest : List Lexeme} {e : Expr} (h : Reads (primary ts) e rest) :
    ∃ used, ts = used ++ rest ∧ Derives .primary used e := by
  rcases h.primary_cases with ⟨used, hts, ha⟩ | ⟨o, after, c, hts, ho, he, hc⟩
  · exact ⟨used, hts, .atom ha⟩
  · have hafter : after.length < ts.length := hts ▸ Nat.lt_succ_self _
    obtain ⟨used, hused, hinner⟩ := he.derives_conditional
    refine ⟨o :: (used ++ [c]), ?_, .parenthesised ho hinner hc⟩
    rw [hts, hused]
    simp
termination_by 16 * ts.length + 2

end

/-! ## What may follow a phrase -/

/-- How loose a phrase is. -/
def Phrase.looseness : Phrase → Nat
  | .primary | .unary => 0
  | .power => 1
  | .binary k => k + 1
  | .conditional => 8

/-- How loose a phrase has to be in order to go on with a token behind it; `none` stands for a token
with which no phrase goes on. -/
def reach : Token → Option Nat
  -- Inside a longer phrase these never follow a phrase, so nothing is lost if any phrase goes on.
  | .parenOpen | .bracketOpen | .dot => some 0
  | .question => some 8
  | t => (operator? t).map fun op => level op + 1

/-- A phrase of the kind ends before the tokens. -/
def Ends (p : Phrase) (ts : List Lexeme) : Prop :=
  ∀ t n, ts.head? = some t → reach t.token = some n → p.looseness < n

/-- What ends a loose phrase ends a tighter one. -/
theorem Ends.mono {p q : Phrase} (h : Ends p ts) (hq : q.looseness ≤ p.looseness) : Ends q ts :=
  fun t n ht hn => Nat.lt_of_le_of_lt hq (h t n ht hn)

theorem ends_nil {p : Phrase} : Ends p [] := fun _ _ h => nomatch h

theorem ends_cons {p : Phrase} {t : Lexeme} :
    Ends p (t :: ts) ↔ ∀ n, reach t.token = some n → p.looseness < n :=
  ⟨fun h n hn => h t n rfl hn, fun h _ n ht hn => h n (Option.some.inj ht ▸ hn)⟩

theorem ends_of_reach {p : Phrase} {t : Lexeme} {n : Nat} (ht : reach t.token = some n)
    (hn : p.looseness < n) : Ends p (t :: ts) := by
  rw [ends_cons, ht]
  rintro _ ⟨⟩
  exact hn

theorem ends_of_reach_none {p : Phrase} {t : Lexeme} (ht : reach t.token = none) :
    Ends p (t :: ts) := by
  rw [ends_cons, ht]
  exact fun _ h => nomatch h

/-- A phrase goes on with an operator if it is as loose as the level of the operator. -/
theorem reach_of_mem_infixes {k : Nat} {t : Token} {op : BinaryOp} (h : (t, op) ∈ infixes k) :
    reach t = some (k + 1) := by
  obtain ⟨hop, rfl, -⟩ := mem_infixes_iff.mp h
  cases t <;> cases hop <;> rfl

theorem ends_of_mem_infixes {k : Nat} {t : Lexeme} {op : BinaryOp}
    (h : (t.token, op) ∈ infixes (k + 1)) : Ends (.binary k) (t :: ts) :=
  ends_of_reach (reach_of_mem_infixes h) (Nat.lt_succ_self _)

/-- A name is not gone on with by what ends a primary phrase. -/
theorem Ends.not_extends (h : Ends .primary ts) : ¬ Extends ts := by
  rintro ⟨t, rest, rfl, ht⟩
  have h0 : ∀ n, reach t.token = some n → 0 < n := ends_cons.mp h
  rcases ht with ht | ht | ⟨ht, -⟩
  all_goals exact absurd (h0 0 (by rw [ht]; rfl)) (Nat.lt_irrefl 0)

theorem Ends.head?_ne {p : Phrase} (h : Ends p ts) {token : Token} {n : Nat}
    (ht : reach token = some n) (hn : n ≤ p.looseness) :
    ts.head?.map Lexeme.token ≠ some token := by
  intro hhead
  obtain ⟨t, hts, rfl⟩ := Option.map_eq_some_iff.mp hhead
  exact absurd (h t n hts ht) (Nat.not_lt.mpr hn)

/-- Where a phrase of a level ends, no operator of the level follows. -/
theorem Ends.operatorAt? {k : Nat} (h : Ends (.binary (k + 1)) ts) :
    operatorAt? (k + 1) ts = none := by
  rw [Option.eq_none_iff_forall_ne_some]
  rintro ⟨op, after⟩ hop
  obtain ⟨t, rfl, ht⟩ := operatorAt?_eq_some_iff.mp hop
  exact absurd (ends_cons.mp h _ (reach_of_mem_infixes ht)) (Nat.lt_irrefl _)

/-! ## A phrase is read -/

/-- What the parser does with a phrase in front of other tokens. A phrase of a level of operators
may be a left operand: the parser goes on to the operators of the level that follow. -/
def Parses : Phrase → List Lexeme → Expr → Prop
  | .conditional, used, e =>
    ∀ rest, Ends .conditional rest → Reads (conditional (used ++ rest)) e rest
  | .binary 0, used, e => ∀ rest, Ends (.binary 0) rest → Reads (binary 0 (used ++ rest)) e rest
  | .binary (k + 1), used, e => ∀ rest e' rest', Ends (.binary k) rest →
    Reads (operators (k + 1) e rest) e' rest' → Reads (binary (k + 1) (used ++ rest)) e' rest'
  | .power, used, e => ∀ rest, Ends .power rest → Reads (power (used ++ rest)) e rest
  | .unary, used, e => ∀ rest, Ends .unary rest → Reads (unary (used ++ rest)) e rest
  | .primary, used, e => ∀ rest, Ends .primary rest → Reads (primary (used ++ rest)) e rest

/-- Where no operator of the level follows, a phrase of the level is all that is read. -/
theorem Parses.binary {k : Nat} {used : List Lexeme} (h : Parses (.binary k) used e)
    (hrest : Ends (.binary k) rest) : Reads (binary k (used ++ rest)) e rest := by
  cases k with
  | zero => exact h rest hrest
  | succ k =>
    refine h rest e rest (hrest.mono (Nat.le_succ _)) ?_
    exact reads_operators.mpr (Or.inl ⟨hrest.operatorAt?, rfl, rfl⟩)

/-- Whatever the grammar derives is read to its end, if what follows ends it. The induction is on
the derivation. -/
theorem Derives.parses {p : Phrase} {used : List Lexeme} (h : Derives p used e) :
    Parses p used e := by
  induction h with
  | loosest _ ih =>
    intro rest hrest
    have hread := ih.binary (hrest.mono (by decide))
    refine reads_conditional.mpr ⟨_, rest, hread, Or.inl ⟨?_, rfl, rfl⟩⟩
    exact hrest.head?_ne rfl (Nat.le_refl 8)
  | @choice cs ys ns q c cond yes no _ hq _ hc _ ihc ihy ihn =>
    intro rest hrest
    rw [List.append_assoc, List.cons_append, List.append_assoc, List.cons_append]
    have hcond : Ends (.binary 6) (q :: (ys ++ c :: (ns ++ rest))) :=
      ends_of_reach (by rw [hq]; rfl) (Nat.lt_succ_self 7)
    have hyes : Ends .conditional (c :: (ns ++ rest)) := ends_of_reach_none (by rw [hc]; rfl)
    exact reads_conditional.mpr ⟨cond, _, ihc.binary hcond, Or.inr
      ⟨q, _, yes, c, ns ++ rest, no, rfl, hq, ihy _ hyes, hc, ihn rest hrest, rfl⟩⟩
  | @tighter k ts e _ ih =>
    intro rest e' rest' hrest ho
    exact reads_binary_succ.mpr ⟨e, rest, ih.binary hrest, ho⟩
  | @infixed k ls rs t op left right _ ht _ ihl ihr =>
    intro rest e' rest' hrest ho
    rw [List.append_assoc, List.cons_append]
    -- The left operand goes on to this operator, and the phrase is the left operand of the next.
    refine ihl _ e' rest' (ends_of_mem_infixes ht) (reads_operators.mpr (Or.inr ?_))
    have hop : operatorAt? (k + 1) (t :: (rs ++ rest)) = some (op, rs ++ rest) :=
      operatorAt?_eq_some_iff.mpr ⟨t, rfl, ht⟩
    exact ⟨op, rs ++ rest, right, rest, hop, ihr.binary hrest, ho⟩
  | tightest _ ih => exact fun rest hrest => reads_binary_zero.mpr (ih rest hrest)
  | base _ ih =>
    intro rest hrest
    refine reads_power.mpr ⟨_, rest, ih rest (hrest.mono (Nat.zero_le _)), Or.inl ⟨?_, rfl, rfl⟩⟩
    exact hrest.head?_ne rfl (Nat.le_refl 1)
  | @raised bs es t base exponent _ ht _ ihb ihe =>
    intro rest hrest
    rw [List.append_assoc, List.cons_append]
    have hbase : Ends .unary (t :: (es ++ rest)) := ends_of_reach (by rw [ht]; rfl) Nat.one_pos
    exact reads_power.mpr ⟨base, _, ihb _ hbase,
      Or.inr ⟨t, es ++ rest, exponent, rfl, ht, ihe rest hrest, rfl⟩⟩
  | operand _ ih => exact fun rest hrest => reads_unary.mpr (Or.inr (ih rest hrest))
  | negative ht _ ih =>
    intro rest hrest
    exact reads_unary.mpr (Or.inl ⟨_, _, _, rfl, ht, ih rest hrest, rfl⟩)
  | @subtracted ts t e ht _ hne ih =>
    intro rest hrest
    have hneg : .binary .sub (.number 0) e = negate e := by
      cases e with
      | dimension value unit => exact absurd rfl (hne value unit)
      | _ => rfl
    exact reads_unary.mpr (Or.inl ⟨_, _, _, rfl, ht, ih rest hrest, hneg⟩)
  | atom ha => exact fun rest hrest => reads_primary_atom ha hrest.not_extends
  | @parenthesised ts o c e ho _ hc ih =>
    -- Whatever follows, the parenthesis has ended the value inside.
    intro rest _
    rw [List.cons_append, List.append_assoc]
    have hclose : Ends .conditional (c :: rest) := ends_of_reach_none (by rw [hc]; rfl)
    exact reads_primary_group ho (ih _ hclose) hc

/-! ## The whole text -/

/-- A complete phrase is a conditional after which nothing is left. -/
theorem complete_eq_ok_iff : complete ts = .ok e ↔ Reads (conditional ts) e [] := by
  unfold complete
  constructor
  · intro h
    split at h
    · cases h
    · rename_i e' _ hc
      cases h
      exact ⟨_, hc⟩
    · cases h
  · rintro ⟨h, hc⟩
    rw [hc]

/-- The parser accepts exactly what the grammar derives. -/
theorem complete_eq_ok_iff_derives : complete ts = .ok e ↔ Derives .conditional ts e := by
  rw [complete_eq_ok_iff]
  constructor
  · intro h
    obtain ⟨used, hts, hd⟩ := h.derives_conditional
    rwa [hts, List.append_nil]
  · intro hd
    have hread : Reads (conditional (ts ++ [])) e [] := hd.parses [] ends_nil
    rwa [List.append_nil] at hread

/-- **The parser accepts the grammar.** It succeeds exactly on the phrases of the grammar, with
their value, and a phrase has one value only. -/
theorem complete_iff_derives (ts : List Lexeme) :
    (∀ e, complete ts = .ok e ↔ Derives .conditional ts e) ∧
      ∀ e e', Derives .conditional ts e → Derives .conditional ts e' → e = e' := by
  refine ⟨fun e => complete_eq_ok_iff_derives, fun e e' h h' => ?_⟩
  have heq := (complete_eq_ok_iff_derives.mpr h).symm.trans (complete_eq_ok_iff_derives.mpr h')
  exact Except.ok.inj heq

/-- The tokens of `LI[2].width - 1.6em - a == "b c"`. -/
def comparison : List Lexeme :=
  [⟨.ident, "LI", 0⟩, ⟨.bracketOpen, "[", 2⟩, ⟨.number, "2", 3⟩, ⟨.bracketClose, "]", 4⟩,
    ⟨.dot, ".", 5⟩, ⟨.ident, "width", 6⟩, ⟨.minus, "-", 12⟩, ⟨.number, "1.6em", 14⟩,
    ⟨.minus, "-", 20⟩, ⟨.ident, "a", 22⟩, ⟨.eqEq, "==", 24⟩, ⟨.doubleQuoted, "\"b c\"", 27⟩]

/-- The differences are grouped to the left, and no derivation groups them to the right. The name of
the tag is in lower case, the index is two, the number has its unit and the text lost its quotes. -/
theorem complete_iff_derives_comparison :
    complete comparison = .ok (.binary .eq
        (.binary .sub (.binary .sub (.property (some ⟨.tag "li", some 2⟩) "width")
          (.dimension 1.6 (some "em"))) (.property none "a")) (.literal "b c")) ∧
      ¬ Derives .conditional comparison (.binary .eq
        (.binary .sub (.property (some ⟨.tag "li", some 2⟩) "width")
          (.binary .sub (.dimension 1.6 (some "em")) (.property none "a"))) (.literal "b c")) := by
  have hwidth : Atom [⟨.ident, "LI", 0⟩, ⟨.bracketOpen, "[", 2⟩, ⟨.number, "2", 3⟩,
      ⟨.bracketClose, "]", 4⟩, ⟨.dot, ".", 5⟩, ⟨.ident, "width", 6⟩]
      (.property (some ⟨.tag "li", some 2⟩) "width") := by
    have hindex : Index "2".toList 2 := ⟨[], ['2'], rfl, Or.inl rfl, by simp, by simp, rfl⟩
    exact .byTag rfl (.indexed rfl rfl hindex rfl rfl rfl)
  have hnumber : Atom [⟨.number, "1.6em", 14⟩] (.dimension 1.6 (some "em")) := by
    have hdecimal : IsDecimal ['1', '.', '6'] ['1'] ['6'] := ⟨Or.inr rfl, by simp, by simp⟩
    exact .number rfl (@Numeral.withUnit _ ['m'] 'e' _ (by simp) (.read hdecimal) (by decide))
  have hname : Atom [⟨.ident, "a", 22⟩] (.property none "a") := .bare rfl
  have htext : Atom [⟨.doubleQuoted, "\"b c\"", 27⟩] (.literal "b c") :=
    .string (Or.inl rfl) (@Quoted.between '"' '"' ['b', ' ', 'c'])
  have hminus : (Token.minus, BinaryOp.sub) ∈ infixes 2 := by decide
  have hequals : (Token.eqEq, BinaryOp.eq) ∈ infixes 4 := by decide
  have hfirst := Derives.infixed (t := ⟨.minus, "-", 12⟩)
    (Derives.binary (.operand (.atom hwidth)) 2) hminus (.binary (.operand (.atom hnumber)) 1)
  have hsecond := Derives.infixed (t := ⟨.minus, "-", 20⟩) hfirst hminus
    (.binary (.operand (.atom hname)) 1)
  have hall := Derives.infixed (t := ⟨.eqEq, "==", 24⟩) (hsecond.binary_mono (by decide : 2 ≤ 4))
    hequals (.binary (.operand (.atom htext)) 3)
  have hderives := Derives.loosest (hall.binary_mono (by decide : 4 ≤ 6))
  refine ⟨((complete_iff_derives comparison).1 _).mpr hderives, fun hright => ?_⟩
  have heq := (complete_iff_derives comparison).2 _ _ hderives hright
  injection heq with _ hdifferences
  injection hdifferences with _ hleft
  cases hleft

end Stencil.Parser
