import Stencil.Proofs.ParserReports
import Stencil.Proofs.TokenPatterns

/-!
# Where parse errors point

What stands before the place of a failure is sound: some tokens complete it. For each kind of phrase
the parser reports a beginning of one (`Begins`), by one induction along the parser's own measure.
The completions close what is open: a name stands for a value that is missing, a parenthesis is
closed, and a choice gets its colon and a name behind it.

* `reports_conditional` — a value that cannot be read is begun by the tokens before the failure
* `complete_of_append` — an error at one of the first tokens does not depend on those behind them
* `parse_error_located` — the tokens before the position of an error are the beginning of a value,
  and all tokens are if they end too early
-/

namespace Stencil.Parser

variable {ts rest : List Lexeme} {t : Lexeme}

/-! ## Completions -/

/-- The text of a token is one of its kind. -/
def Spelled (l : Lexeme) : Prop := l.text.toList ∈ l.token.pattern

/-- Tokens that some others complete. -/
def Completable (P : List Lexeme → Prop) (ts : List Lexeme) : Prop :=
  ∃ more, (∀ l ∈ more, Spelled l) ∧ P (ts ++ more)

/-- The beginning of a phrase. -/
def Begins (p : Phrase) : List Lexeme → Prop := Completable fun ts => ∃ e, Derives p ts e

/-- The beginning of what follows a selector. -/
def BeginsSuffix : List Lexeme → Prop := Completable fun ts => ∃ index name, Suffix ts index name

-- What the completions below are made of.
namespace Filler

def name : Lexeme := ⟨.ident, "a", 0⟩
def zero : Lexeme := ⟨.number, "0", 0⟩
def dot : Lexeme := ⟨.dot, ".", 0⟩
def colon : Lexeme := ⟨.colon, ":", 0⟩
def parenClose : Lexeme := ⟨.parenClose, ")", 0⟩
def bracketClose : Lexeme := ⟨.bracketClose, "]", 0⟩

@[simp] theorem spelled_name : Spelled name :=
  Token.mem_ident.mpr ⟨'a', [], by decide, by decide, by simp⟩

@[simp] theorem spelled_zero : Spelled zero := by
  refine Token.mem_number.mpr ⟨['0'], [], [], ?_, Or.inl rfl, Or.inl rfl, by decide⟩
  exact Pattern.mem_run.mpr ⟨by simp, List.forall_mem_singleton.mpr (by decide)⟩

@[simp] theorem spelled_dot : Spelled dot := Set.mem_singleton_iff.mpr (by decide)

@[simp] theorem spelled_colon : Spelled colon := Set.mem_singleton_iff.mpr (by decide)

@[simp] theorem spelled_parenClose : Spelled parenClose := Set.mem_singleton_iff.mpr (by decide)

@[simp] theorem spelled_bracketClose : Spelled bracketClose :=
  Set.mem_singleton_iff.mpr (by decide)

end Filler

section Begins

variable {p p' : Phrase} {used cs ys ls bs : List Lexeme} {q c o : Lexeme} {k : Nat}
  {op : BinaryOp} {e cond yes left base : Expr}

theorem Derives.begins (h : Derives p used e) : Begins p used :=
  ⟨[], by simp, e, by rwa [List.append_nil]⟩

/-- Where every phrase of one kind is of another, what begins the one begins the other. -/
theorem Begins.lift (h : Begins p used) (hlift : ∀ {ts e}, Derives p ts e → Derives p' ts e) :
    Begins p' used := by
  obtain ⟨more, hmore, e, he⟩ := h
  exact ⟨more, hmore, e, hlift he⟩

theorem derives_filler_name (k : Nat) : Derives (.binary k) [Filler.name] (.property none "a") :=
  Derives.binary (.operand (.atom (.bare rfl))) k

/-- Behind the question mark of a choice. -/
theorem Begins.choiceYes (h : Begins .conditional used) (hcond : Derives (.binary 6) cs cond)
    (hq : q.token = .question) : Begins .conditional (cs ++ q :: used) := by
  obtain ⟨more, hmore, yes, hyes⟩ := h
  have hno : Derives .conditional [Filler.name] _ := .loosest (derives_filler_name 6)
  have hchoice := Derives.choice hcond hq hyes (c := Filler.colon) rfl hno
  refine ⟨more ++ [Filler.colon, Filler.name], ?_, _, by simpa using hchoice⟩
  simpa [or_imp, forall_and] using hmore

/-- Behind the colon of a choice. -/
theorem Begins.choiceNo (h : Begins .conditional used) (hcond : Derives (.binary 6) cs cond)
    (hq : q.token = .question) (hyes : Derives .conditional ys yes) (hc : c.token = .colon) :
    Begins .conditional (cs ++ q :: (ys ++ c :: used)) := by
  obtain ⟨more, hmore, no, hno⟩ := h
  have hchoice := Derives.choice hcond hq hyes hc hno
  exact ⟨more, hmore, .conditional cond yes no, by simpa using hchoice⟩

/-- After an operator, the beginning of a right operand begins the whole. -/
theorem Begins.infixed (h : Begins (.binary k) used) (hleft : Derives (.binary (k + 1)) ls left)
    (ht : (t.token, op) ∈ infixes (k + 1)) : Begins (.binary (k + 1)) (ls ++ t :: used) := by
  obtain ⟨more, hmore, right, hright⟩ := h
  have hinfixed := Derives.infixed hleft ht hright
  exact ⟨more, hmore, .binary op left right, by simpa using hinfixed⟩

theorem Begins.raised (h : Begins .power used) (hbase : Derives .unary bs base)
    (ht : t.token = .starStar) : Begins .power (bs ++ t :: used) := by
  obtain ⟨more, hmore, exponent, hexponent⟩ := h
  have hraised := Derives.raised hbase ht hexponent
  exact ⟨more, hmore, .binary .pow base exponent, by simpa using hraised⟩

theorem Begins.negated (h : Begins .unary used) (ht : t.token = .minus) :
    Begins .unary (t :: used) := by
  obtain ⟨more, hmore, operand, hoperand⟩ := h
  exact ⟨more, hmore, negate operand, derives_negate ht hoperand⟩

/-- A parenthesis that is open can be closed. -/
theorem Begins.parenthesised (h : Begins .conditional used) (ho : o.token = .parenOpen) :
    Begins .primary (o :: used) := by
  obtain ⟨more, hmore, e, he⟩ := h
  have hgroup := Derives.parenthesised ho he (c := Filler.parenClose) rfl
  refine ⟨more ++ [Filler.parenClose], ?_, e, by simpa using hgroup⟩
  simpa [or_imp, forall_and] using hmore

end Begins

theorem begins_primary_nil : Begins .primary [] :=
  ⟨[Filler.name], by simp, .property none "a", .atom (.bare rfl)⟩

/-! ## Atoms -/

section Atoms

variable {used : List Lexeme} {n : Lexeme}

/-- What begins a suffix begins the phrase that it goes on with. -/
theorem BeginsSuffix.begins (h : BeginsSuffix used) (front : List Lexeme)
    (hatom : ∀ ts index name, Suffix ts index name → ∃ e, Atom (front ++ ts) e) :
    Begins .primary (front ++ used) := by
  obtain ⟨more, hmore, index, name, hsuffix⟩ := h
  obtain ⟨e, he⟩ := hatom _ _ _ hsuffix
  exact ⟨more, hmore, e, by simpa using Derives.atom he⟩

theorem reports_indexAfter {o : Lexeme} (ho : o.token = .bracketOpen) :
    Reports (fun used => BeginsSuffix (o :: used)) indexAfter ts := by
  have hindex (n : Lexeme) (i : UInt64) (hn : n.token = .number)
      (hi : Text.readIndex n.text.toList = some i) :
      Suffix [o, n, Filler.bracketClose, Filler.dot, Filler.name] (some i) "a" :=
    .indexed ho hn (Text.readIndex_eq_some_iff.mp hi) rfl rfl rfl
  have hopen : BeginsSuffix [o] := by
    refine ⟨[Filler.zero, Filler.bracketClose, Filler.dot, Filler.name], by simp, some 0, "a", ?_⟩
    exact hindex Filler.zero 0 rfl (by decide +kernel)
  cases ts with
  | nil => exact reports_nil_ended rfl hopen
  | cons n after =>
    by_cases hn : n.token = .number
    · cases hi : Text.readIndex n.text.toList with
      | none =>
        refine reports_unexpected (fun rest => ?_) (fun _ => .index) hopen
        rw [indexAfter, if_pos hn, hi]
      | some i =>
        refine .cons (.congr (fun rest => by rw [indexAfter, if_pos hn, hi]) ?_)
        refine (reports_expect ?_).map
        exact ⟨[Filler.bracketClose, Filler.dot, Filler.name], by simp, some i, "a",
          hindex n i hn hi⟩
    · refine reports_unexpected (fun rest => ?_) (fun _ => .token (.token .number)) hopen
      rw [indexAfter, if_neg hn]

theorem reports_index : Reports BeginsSuffix (fun ts => outcome (index? ts)) ts := by
  cases ts with
  | nil => exact reports_nil_ok rfl
  | cons t rest =>
    by_cases ht : t.token = .bracketOpen
    · exact .cons (.congr (outcome_index_bracket ht) (reports_indexAfter ht))
    · exact reports_ok.congr_cons fun front _ _ => outcome_index_other ht front

theorem reports_selected (target : Target) (ts : List Lexeme) :
    Reports BeginsSuffix (fun ts => outcome (selected target ts)) ts := by
  refine .congr (outcome_selected target) (reports_index.andThen fun index rest h => ?_)
  obtain ⟨front, rfl, hfront⟩ : ∃ front, ts = front ++ rest ∧ ∀ d p : Lexeme, d.token = .dot →
      p.token = .ident → Suffix (front ++ [d, p]) index p.text := by
    rcases reads_index.mp (outcome_eq_ok_iff.mp h) with
      ⟨-, rfl, rfl⟩ | ⟨o, n, c, i, rfl, ho, hn, hi, hc, rfl⟩
    · exact ⟨[], rfl, fun d p => .plain⟩
    · exact ⟨[o, n, c], rfl, fun d p => .indexed ho hn hi hc⟩
  refine ⟨front, rfl, reports_expect_andThen ?_ fun d rest' _ hd => ?_⟩
  · refine ⟨[Filler.dot, Filler.name], by simp, index, "a", ?_⟩
    rw [List.append_nil]
    exact hfront Filler.dot Filler.name rfl rfl
  · refine reports_expect_andThen ?_ fun p rest'' _ _ => reports_ok
    refine ⟨[Filler.name], by simp, index, Filler.name.text, ?_⟩
    simpa using hfront d Filler.name hd rfl

/-- A name behind a sigil, and what follows it. -/
theorem reports_sigil {h : Lexeme} {target : String → Target}
    (hh : (h.token = .hash ∧ target = .id) ∨ (h.token = .dot ∧ target = .className)) :
    Reports (fun used => Begins .primary (h :: used)) (fun ts => outcome (primary (h :: ts)))
      ts := by
  have hatom (n : Lexeme) (hn : n.token = .ident) (ts : List Lexeme) (index : Option UInt64)
      (name : String) (hsuffix : Suffix ts index name) : ∃ e, Atom ([h, n] ++ ts) e := by
    rcases hh with ⟨hh, -⟩ | ⟨hh, -⟩
    · exact ⟨_, .byId hh hn hsuffix⟩
    · exact ⟨_, .byClass hh hn hsuffix⟩
  refine .congr (outcome_primary_sigil hh) (reports_expect_andThen ?_ fun n rest _ hn => ?_)
  · obtain ⟨e, he⟩ := hatom Filler.name rfl [Filler.dot, Filler.name] none "a" (.plain rfl rfl)
    exact ⟨[Filler.name, Filler.dot, Filler.name], by simp, e, .atom he⟩
  · exact (reports_selected (target n.text) rest).mono
      fun used hused => hused.begins [h, n] (hatom n hn)

/-- A name alone is a phrase, so that a complaint is about what it goes on with. -/
theorem reports_named (hn : n.token = .ident) :
    Reports (fun used => Begins .primary (n :: used)) (fun ts => outcome (named n.text ts)) ts := by
  cases ts with
  | nil => exact reports_nil_ok rfl
  | cons t rest =>
    by_cases hparen : t.token = .parenOpen
    · refine .cons (.congr (outcome_named_group n.text hparen) ?_)
      have hgroup (v : Lexeme) (hv : v.token = .ident) :
          Derives .primary [n, t, v, Filler.parenClose] (.var n.text v.text) :=
        .atom (.ofGroup hn hparen hv rfl)
      refine reports_expect_andThen ?_ fun v after _ hv => (reports_expect ?_).map
      · exact ⟨[Filler.name, Filler.parenClose], by simp, _, hgroup Filler.name rfl⟩
      · exact ⟨[Filler.parenClose], by simp, _, hgroup v hv⟩
    have hbytag (ts : List Lexeme) (index : Option UInt64) (name : String)
        (h : Suffix ts index name) : ∃ e, Atom ([n] ++ ts) e := ⟨_, .byTag hn h⟩
    by_cases hbracket : t.token = .bracketOpen
    · have hselected := (reports_selected (.tag (Text.lower n.text)) (t :: rest)).mono
        fun used h => h.begins [n] hbytag
      exact hselected.congr_cons fun front _ _ =>
        outcome_named_selected n.text hparen (.inl hbracket)
    by_cases hdot : t.token = .dot ∧ rest.head?.map Lexeme.token = some .ident
    · obtain ⟨hdot, hident⟩ := hdot
      obtain ⟨p, hhead, hp⟩ := Option.map_eq_some_iff.mp hident
      obtain ⟨rest, rfl⟩ := List.head?_eq_some_iff.mp hhead
      -- The two tokens that the parser has looked at, it takes.
      have htaken (rest : List Lexeme) : outcome (named n.text (t :: p :: rest))
          = .ok (.property (some ⟨.tag (Text.lower n.text), none⟩) p.text, rest) := by
        have hnext : (p :: rest).head?.map Lexeme.token = some .ident := congrArg some hp
        rw [outcome_named_selected n.text hparen (.inr ⟨hdot, hnext⟩), outcome_eq_ok_iff]
        exact reads_selected.mpr ⟨[t, p], none, p.text, rfl, .plain hdot hp, rfl⟩
      exact .cons (.cons (.congr htaken reports_ok))
    · refine reports_ok.congr_cons fun front more hrest => outcome_named_bare n.text hparen ?_
      rintro (h | ⟨h, hident⟩)
      · exact hbracket h
      · obtain ⟨p, hhead, -⟩ := Option.map_eq_some_iff.mp hident
        obtain ⟨front, rfl⟩ := List.head?_eq_some_iff.mp hhead
        rw [hrest] at hdot
        exact hdot ⟨h, hident⟩

end Atoms

/-! ## Phrases -/

-- By the parser's own measure.
mutual

/-- Each function of the parser stops where no phrase of its kind can go on. The six proofs call
each other as the functions do. -/
theorem reports_conditional (ts : List Lexeme) :
    Reports (Begins .conditional) (fun ts => outcome (conditional ts)) ts := by
  have hbinary := (reports_binary 6 ts).mono fun used h => h.lift .loosest
  refine .congr outcome_conditional (hbinary.andThen fun cond rest h => ?_)
  have hread := outcome_eq_ok_iff.mp h
  have hrest := hread.length_lt
  obtain ⟨cs, hts, hcond⟩ := hread.derives_binary
  refine ⟨cs, hts, ?_⟩
  cases rest with
  | nil => exact reports_nil_ok rfl
  | cons q after =>
    by_cases hq : q.token = .question
    · refine .cons (.congr (fun after => by rw [choiceAfter, if_pos hq]) ?_)
      have hafter : after.length < ts.length := Nat.lt_of_succ_lt hrest
      refine ((reports_conditional after).mono fun used h => h.choiceYes hcond hq).andThen
        fun yes rest₁ h₁ => ?_
      have hread₁ := outcome_eq_ok_iff.mp h₁
      have hrest₁ := hread₁.length_lt
      obtain ⟨ys, hys, hyes⟩ := hread₁.derives_conditional
      refine ⟨ys, hys, reports_expect_andThen ?_ fun c rest₂ hrest hc => ?_⟩
      · rw [List.append_nil]
        exact hyes.begins.choiceYes hcond hq
      · have hrest₂ : rest₂.length < rest₁.length := hrest ▸ Nat.lt_succ_self _
        exact ((reports_conditional rest₂).mono fun used h => h.choiceNo hcond hq hyes hc).map
    · exact reports_ok.congr_cons fun front _ _ => by rw [choiceAfter, if_neg hq]
termination_by 16 * ts.length + 15

theorem reports_binary (k : Nat) (ts : List Lexeme) :
    Reports (Begins (.binary k)) (fun ts => outcome (binary k ts)) ts := by
  cases k with
  | zero =>
    have hpower := (reports_power ts).mono fun used h => h.lift .tightest
    exact .congr outcome_binary_zero hpower
  | succ k =>
    have hbinary := (reports_binary k ts).mono fun used h => h.lift .tighter
    refine .congr (outcome_binary_succ k) (hbinary.andThen fun left rest h => ?_)
    have hread := outcome_eq_ok_iff.mp h
    have hrest := hread.length_lt
    obtain ⟨ls, hts, hleft⟩ := hread.derives_binary
    exact ⟨ls, hts, reports_operators (.tighter hleft) rest⟩
termination_by 16 * ts.length + k + 5

/-- The left operand has been read, and is part of what was begun. -/
theorem reports_operators {k : Nat} {left : Expr} {ls : List Lexeme}
    (hleft : Derives (.binary (k + 1)) ls left) (ts : List Lexeme) :
    Reports (fun used => Begins (.binary (k + 1)) (ls ++ used))
      (fun ts => outcome (operators (k + 1) left ts)) ts := by
  cases ts with
  | nil => exact reports_nil_ok (outcome_operators_none rfl)
  | cons t rest =>
    by_cases hop : ∃ op, (t.token, op) ∈ infixes (k + 1)
    · obtain ⟨op, hop⟩ := hop
      refine .cons (.congr (fun rest => outcome_operators_some
        (operatorAt?_eq_some_iff.mpr ⟨t, rfl, hop⟩)) ?_)
      refine ((reports_binary k rest).mono fun used h => h.infixed hleft hop).andThen
        fun right mid h => ?_
      have hread := outcome_eq_ok_iff.mp h
      have hmid := hread.length_lt
      obtain ⟨rs, hrs, hright⟩ := hread.derives_binary
      refine ⟨rs, hrs, (reports_operators (.infixed hleft hop hright) mid).mono fun used h => ?_⟩
      rwa [List.append_assoc, List.cons_append] at h
    · refine reports_ok.congr_cons fun front _ _ => outcome_operators_none ?_
      rw [Option.eq_none_iff_forall_ne_some]
      rintro ⟨op, after⟩ hat
      obtain ⟨t', hts, ht⟩ := operatorAt?_eq_some_iff.mp hat
      obtain ⟨rfl, -⟩ := List.cons.inj hts
      exact hop ⟨op, ht⟩
termination_by 16 * ts.length + k + 1

theorem reports_power (ts : List Lexeme) :
    Reports (Begins .power) (fun ts => outcome (power ts)) ts := by
  have hunary := (reports_unary ts).mono fun used h => h.lift .base
  refine .congr outcome_power (hunary.andThen fun base rest h => ?_)
  have hread := outcome_eq_ok_iff.mp h
  have hrest := hread.length_lt
  obtain ⟨bs, hts, hbase⟩ := hread.derives_unary
  refine ⟨bs, hts, ?_⟩
  cases rest with
  | nil => exact reports_nil_ok rfl
  | cons t after =>
    by_cases ht : t.token = .starStar
    · refine .cons (.congr (fun after => by rw [exponentAfter, if_pos ht]) ?_)
      have hafter : after.length < ts.length := Nat.lt_of_succ_lt hrest
      exact ((reports_power after).mono fun used h => h.raised hbase ht).map
    · exact reports_ok.congr_cons fun front _ _ => by rw [exponentAfter, if_neg ht]
termination_by 16 * ts.length + 4

theorem reports_unary (ts : List Lexeme) :
    Reports (Begins .unary) (fun ts => outcome (unary ts)) ts := by
  have hprimary := (reports_primary ts).mono fun used h => h.lift .operand
  cases ts with
  | nil => exact reports_nil_ended (by rw [unary, primary]; rfl) (begins_primary_nil.lift .operand)
  | cons t rest =>
    by_cases ht : t.token = .minus
    · refine .cons (.congr (outcome_unary_minus ht) ?_)
      exact ((reports_unary rest).mono fun used h => h.negated ht).map
    · exact hprimary.congr_cons fun front _ _ => outcome_unary_other ht front
termination_by 16 * ts.length + 3

theorem reports_primary (ts : List Lexeme) :
    Reports (Begins .primary) (fun ts => outcome (primary ts)) ts := by
  cases ts with
  | nil => exact reports_nil_ended (by rw [primary]; rfl) begins_primary_nil
  | cons t rest =>
    by_cases hparen : t.token = .parenOpen
    · refine .cons (.congr (outcome_primary_group hparen) ?_)
      refine ((reports_conditional rest).mono fun used h => h.parenthesised hparen).andThen
        fun e after h => ?_
      obtain ⟨used, hused, he⟩ := (outcome_eq_ok_iff.mp h).derives_conditional
      refine ⟨used, hused, (reports_expect ?_).map⟩
      rw [List.append_nil]
      exact he.begins.parenthesised hparen
    by_cases hident : t.token = .ident
    · exact .cons (.congr (outcome_primary_ident hident) (reports_named hident))
    by_cases hhash : t.token = .hash
    · exact .cons (reports_sigil (.inl ⟨hhash, rfl⟩))
    by_cases hdot : t.token = .dot
    · exact .cons (reports_sigil (.inr ⟨hdot, rfl⟩))
    rcases outcome_primary_other hparen hhash hdot hident with ⟨e, he⟩ | hwanted
    · exact .cons (.congr he reports_ok)
    · exact reports_unexpected hwanted (fun _ => .token .value) begins_primary_nil
termination_by 16 * ts.length + 2

end

/-! ## The whole text -/

/-- Tokens that some others complete to a value. -/
def Viable : List Lexeme → Prop := Completable fun ts => ∃ e, complete ts = .ok e

/-- The beginning of a conditional can be completed to one. -/
theorem Begins.viable (h : Begins .conditional ts) : Viable ts := by
  obtain ⟨more, hmore, e, he⟩ := h
  exact ⟨more, hmore, e, complete_eq_ok_iff_derives.mpr he⟩

/-- A complaint is about a token. -/
def Concerns : Complaint → Lexeme → Prop
  | .trailing found, t => found = t
  | .wanted _ found, t => found = t
  | .notAnIndex text, t => text = t.text

/-- Either no value could be read, or a token follows it. -/
theorem complete_eq_error_iff {error : ParseError} :
    complete ts = .error error ↔
      (∃ failure, outcome (conditional ts) = .error failure ∧ error = failure.toError ts.length) ∨
      ∃ e t rest, outcome (conditional ts) = .ok (e, t :: rest) ∧
        error = .unexpectedToken (ts.length - (rest.length + 1)) (.trailing t) := by
  unfold complete
  cases hc : conditional ts with
  | error failure => simp [outcome, Except.map, eq_comm]
  | ok r =>
    obtain ⟨e, rest, hrest⟩ := r
    cases rest with
    | nil => simp [outcome, Except.map]
    | cons t rest => simp [outcome, Except.map, eq_comm]

/-- An error at one of the first tokens does not depend on those behind them. -/
theorem complete_of_append {more : List Lexeme} {position : Nat} {complaint : Complaint}
    (h : complete (ts ++ more) = .error (.unexpectedToken position complaint))
    (hposition : position < ts.length) :
    complete ts = .error (.unexpectedToken position complaint) := by
  have hreports := reports_conditional (ts ++ more)
  have hlen : (ts ++ more).length = ts.length + more.length := List.length_append
  rcases complete_eq_error_iff.mp h with ⟨failure, hf, herror⟩ | ⟨e, t, rest, hok, herror⟩
  · cases failure with
    | ended wanted => cases herror
    | unexpected n complaint' =>
      cases herror
      have hle := hreports.le_length hf
      obtain ⟨m, rfl⟩ : ∃ m, n = m + more.length := ⟨n - more.length, by omega⟩
      have hfront := hreports.front_error rfl (by omega) hf
      refine complete_eq_error_iff.mpr (Or.inl ⟨_, hfront, ?_⟩)
      rw [Failure.toError]
      congr 1
      omega
  · cases herror
    have hle : rest.length + 1 ≤ (ts ++ more).length := (hreports.suffix hok).length_le
    have hlt : more.length < rest.length + 1 := by omega
    obtain ⟨left, hne, hrest, hfront⟩ := hreports.exists_left rfl hok hlt
    obtain ⟨t', left, rfl⟩ := List.exists_cons_of_ne_nil hne
    rw [List.cons_append] at hrest
    obtain ⟨rfl, rfl⟩ := List.cons.inj hrest
    refine complete_eq_error_iff.mpr (Or.inr ⟨e, t, left, hfront, ?_⟩)
    simp only [List.length_append] at hle ⊢
    congr 1
    omega

theorem concerns_getElem {used : List Lexeme} {complaint : Complaint} (h : Concerns complaint t) :
    ∃ hposition : used.length < (used ++ t :: rest).length,
      Concerns complaint ((used ++ t :: rest)[used.length]) :=
  ⟨by simp, by simpa using h⟩

/-- **Parse errors point at the right place.** A complaint is about the token at its position, and
what stands before the position is the beginning of a value, or a value if the complaint is that the
token follows one. If the tokens end too early, all of them are the beginning of a value, and no
complaint is about one of them, whatever follows. -/
theorem parse_error_located {s : String} {ts : List Lexeme} {error : ParseError}
    (htokens : tokenize s = .ok ts) (hne : ts ≠ []) (herror : Expr.parse s = .error error) :
    (∃ position complaint, error = .unexpectedToken position complaint ∧
      (∃ hposition : position < ts.length, Concerns complaint ts[position]) ∧
      Viable (ts.take position) ∧
      ∀ found, complaint = .trailing found → ∃ e, complete (ts.take position) = .ok e) ∨
    ∃ wanted, error = .unexpectedEnd wanted ∧ Viable ts ∧
      ∀ more position complaint,
        complete (ts ++ more) = .error (.unexpectedToken position complaint) →
        ts.length ≤ position := by
  have hcomplete : complete ts = .error error := by
    obtain ⟨t, rest, rfl⟩ := List.exists_cons_of_ne_nil hne
    rwa [Expr.parse, htokens] at herror
  have hposition (used rest : List Lexeme) (t : Lexeme) :
      (used ++ t :: rest).length - (rest.length + 1) = used.length := by simp
  rcases complete_eq_error_iff.mp hcomplete with ⟨failure, hf, rfl⟩ | ⟨e, t, rest, hok, rfl⟩
  · obtain ⟨used, rest, rfl, hbegins, hblames⟩ := (reports_conditional ts).stops hf
    cases hblames with
    | token wanted =>
      refine Or.inl ⟨_, _, rfl, ?_⟩
      rw [hposition, List.take_left]
      exact ⟨concerns_getElem rfl, hbegins.viable, by simp⟩
    | index =>
      refine Or.inl ⟨_, _, rfl, ?_⟩
      rw [hposition, List.take_left]
      exact ⟨concerns_getElem rfl, hbegins.viable, by simp⟩
    | ended wanted =>
      rw [List.append_nil] at hcomplete ⊢
      refine Or.inr ⟨wanted, rfl, hbegins.viable, fun more position complaint h => ?_⟩
      by_contra hlt
      cases hcomplete.symm.trans (complete_of_append h (Nat.lt_of_not_le hlt))
  · obtain ⟨used, rfl, hvalue⟩ := (outcome_eq_ok_iff.mp hok).derives_conditional
    refine Or.inl ⟨_, _, rfl, ?_⟩
    rw [hposition, List.take_left]
    have haccepted : complete used = .ok e := complete_eq_ok_iff_derives.mpr hvalue
    exact ⟨concerns_getElem rfl, hvalue.begins.viable, fun _ _ => ⟨e, haccepted⟩⟩

/-- The tokens of `(a ? #b[1]`. -/
def unfinished : List Lexeme :=
  [⟨.parenOpen, "(", 0⟩, ⟨.ident, "a", 1⟩, ⟨.question, "?", 3⟩, ⟨.hash, "#", 5⟩, ⟨.ident, "b", 6⟩,
    ⟨.bracketOpen, "[", 7⟩, ⟨.number, "1", 8⟩, ⟨.bracketClose, "]", 9⟩]

/-- In parentheses and in a choice, the name behind the index of a selector is at fault, and without
it the tokens end too early. The same name behind a value is one token too many. -/
theorem parse_error_located_unfinished :
    (tokenize "(a ? #b[1] c" = .ok (unfinished ++ [⟨.ident, "c", 11⟩]) ∧
      Expr.parse "(a ? #b[1] c"
        = .error (.unexpectedToken 8 (.wanted (.token .dot) ⟨.ident, "c", 11⟩)) ∧
      Viable unfinished) ∧
    (tokenize "(a ? #b[1]" = .ok unfinished ∧
      Expr.parse "(a ? #b[1]" = .error (.unexpectedEnd (.token .dot)) ∧ Viable unfinished) ∧
    (tokenize "b c" = .ok [⟨.ident, "b", 0⟩, ⟨.ident, "c", 2⟩] ∧
      Expr.parse "b c" = .error (.unexpectedToken 1 (.trailing ⟨.ident, "c", 2⟩)) ∧
      ∃ e, complete [⟨.ident, "b", 0⟩] = .ok e) := by
  have htokens : tokenize "(a ? #b[1] c" = .ok (unfinished ++ [⟨.ident, "c", 11⟩]) := by
    decide +kernel
  have herror : Expr.parse "(a ? #b[1] c"
      = .error (.unexpectedToken 8 (.wanted (.token .dot) ⟨.ident, "c", 11⟩)) := by
    decide +kernel
  have htokens₁ : tokenize "(a ? #b[1]" = .ok unfinished := by decide +kernel
  have herror₁ : Expr.parse "(a ? #b[1]" = .error (.unexpectedEnd (.token .dot)) := by
    decide +kernel
  have htokens₂ : tokenize "b c" = .ok [⟨.ident, "b", 0⟩, ⟨.ident, "c", 2⟩] := by decide +kernel
  have herror₂ : Expr.parse "b c"
      = .error (.unexpectedToken 1 (.trailing ⟨.ident, "c", 2⟩)) := by
    decide +kernel
  refine ⟨⟨htokens, herror, ?_⟩, ⟨htokens₁, herror₁, ?_⟩, htokens₂, herror₂, ?_⟩
  · rcases parse_error_located htokens (by simp) herror with
      ⟨position, complaint, heq, -, hviable, -⟩ | ⟨wanted, heq, -⟩
    · cases heq
      exact hviable
    · cases heq
  · rcases parse_error_located htokens₁ (by simp [unfinished]) herror₁ with
      ⟨position, complaint, heq, -⟩ | ⟨wanted, -, hviable, -⟩
    · cases heq
    · exact hviable
  · rcases parse_error_located htokens₂ (by simp) herror₂ with
      ⟨position, complaint, heq, -, -, htrailing⟩ | ⟨wanted, heq, -⟩
    · cases heq
      exact htrailing _ rfl
    · cases heq

end Stencil.Parser
