import Stencil.Proofs.ParserOutcomes

/-!
# What a parser reports

A failure of a parser stops in front of a token, or behind the last one (`Blames`). `Reports` says
of a parser at given tokens what the tokens before that place satisfy, and that the parser has not
looked past the place: if the tokens are cut off anywhere behind it, the parser does the same.

Both go together from parser to parser. `Reports.andThen` is the rule for one parser after another,
`Reports.cons` for a parser that has taken a token, and `Reports.congr_cons` for one that has looked
at a token and goes on as another.
-/

namespace Stencil.Parser

variable {α β : Type} {ts rest : List Lexeme} {t : Lexeme}

/-- The place of a failure: in front of the token that does not fit, or behind the last one. -/
inductive Blames : List Lexeme → Failure → Prop
  | token {t : Lexeme} {rest : List Lexeme} (wanted : Wanted) :
      Blames (t :: rest) (.unexpected (rest.length + 1) (.wanted wanted t))
  | index {t : Lexeme} {rest : List Lexeme} :
      Blames (t :: rest) (.unexpected (rest.length + 1) (.notAnIndex t.text))
  | ended (wanted : Wanted) : Blames [] (.ended wanted)

theorem Blames.length_eq {n : Nat} {complaint : Complaint}
    (h : Blames rest (.unexpected n complaint)) : rest.length = n := by
  cases h <;> rfl

/-- What a parser does with tokens. The tokens that it has taken when it fails satisfy `Before`. A
result with tokens left over from a beginning of the tokens, or a complaint about one of them, does
not depend on what follows the beginning. -/
structure Reports (Before : List Lexeme → Prop) (parser : List Lexeme → Outcome α)
    (ts : List Lexeme) : Prop where
  suffix : ∀ {a rest}, parser ts = .ok (a, rest) → rest <:+ ts
  stops : ∀ {failure}, parser ts = .error failure →
    ∃ used rest, ts = used ++ rest ∧ Before used ∧ Blames rest failure
  front_ok : ∀ {front more a rest}, ts = front ++ more → rest ≠ [] →
    parser ts = .ok (a, rest ++ more) → parser front = .ok (a, rest)
  front_error : ∀ {front more n complaint}, ts = front ++ more → 0 < n →
    parser ts = .error (.unexpected (n + more.length) complaint) →
    parser front = .error (.unexpected n complaint)

variable {Before Before' : List Lexeme → Prop} {parser parser' : List Lexeme → Outcome α}

theorem Reports.congr (h : ∀ ts, parser ts = parser' ts) (hr : Reports Before parser' ts) :
    Reports Before parser ts := by
  rw [funext h]
  exact hr

theorem Reports.mono (hr : Reports Before parser ts) (h : ∀ used, Before used → Before' used) :
    Reports Before' parser ts where
  suffix := hr.suffix
  stops hf := by
    obtain ⟨used, rest, hts, hused, hblames⟩ := hr.stops hf
    exact ⟨used, rest, hts, h used hused, hblames⟩
  front_ok := hr.front_ok
  front_error := hr.front_error

/-- A complaint is about a token that is there. -/
theorem Reports.le_length (hr : Reports Before parser ts) {n : Nat} {complaint : Complaint}
    (h : parser ts = .error (.unexpected n complaint)) : n ≤ ts.length := by
  obtain ⟨used, rest, rfl, -, hblames⟩ := hr.stops h
  rw [List.length_append, hblames.length_eq]
  exact Nat.le_add_left _ _

/-- Tokens left over that reach into a beginning are left over from it too. -/
theorem Reports.exists_left (hr : Reports Before parser ts) {front more mid : List Lexeme} {a : α}
    (hts : ts = front ++ more) (h : parser ts = .ok (a, mid)) (hlt : more.length < mid.length) :
    ∃ left, left ≠ [] ∧ mid = left ++ more ∧ parser front = .ok (a, left) := by
  have hmore : more <:+ mid :=
    List.suffix_of_suffix_length_le ⟨front, hts.symm⟩ (hr.suffix h) (Nat.le_of_lt hlt)
  obtain ⟨left, rfl⟩ := hmore
  have hne : left ≠ [] := by
    rintro rfl
    exact absurd hlt (Nat.lt_irrefl _)
  exact ⟨left, hne, rfl, hr.front_ok hts hne h⟩

/-- One parser after another. The second starts where the first has left off. -/
theorem Reports.andThen {next : α → List Lexeme → Outcome β} (hr : Reports Before parser ts)
    (hnext : ∀ a rest, parser ts = .ok (a, rest) →
      ∃ used, ts = used ++ rest ∧ Reports (fun more => Before (used ++ more)) (next a) rest) :
    Reports Before (fun ts => (parser ts).andThen next) ts where
  suffix {b rest} h := by
    cases hp : parser ts with
    | error failure => rw [hp] at h; cases h
    | ok r =>
      obtain ⟨used, hts, hr'⟩ := hnext r.1 r.2 hp
      rw [hp] at h
      exact (hr'.suffix h).trans (hr.suffix hp)
  stops {failure} h := by
    cases hp : parser ts with
    | error failure' =>
      rw [hp] at h
      cases h
      exact hr.stops hp
    | ok r =>
      obtain ⟨used, hts, hr'⟩ := hnext r.1 r.2 hp
      rw [hp] at h
      obtain ⟨used', rest, hrest, hbefore, hblames⟩ := hr'.stops h
      exact ⟨used ++ used', rest, by rw [hts, hrest, List.append_assoc], hbefore, hblames⟩
  front_ok {front more b rest} hts hne h := by
    cases hp : parser ts with
    | error failure => rw [hp] at h; cases h
    | ok r =>
      obtain ⟨a, mid⟩ := r
      obtain ⟨used, hused, hr'⟩ := hnext a mid hp
      rw [hp] at h
      have hle := (hr'.suffix h).length_le
      have hpos := List.length_pos_of_ne_nil hne
      have hlt : more.length < mid.length := by
        rw [List.length_append] at hle
        omega
      obtain ⟨left, -, rfl, hfront⟩ := hr.exists_left hts hp hlt
      rw [hfront]
      exact hr'.front_ok rfl hne h
  front_error {front more n complaint} hts hn h := by
    cases hp : parser ts with
    | error failure =>
      rw [hp] at h
      cases h
      rw [hr.front_error hts hn hp]
      rfl
    | ok r =>
      obtain ⟨a, mid⟩ := r
      obtain ⟨used, hused, hr'⟩ := hnext a mid hp
      rw [hp] at h
      have hle := hr'.le_length h
      have hlt : more.length < mid.length := by omega
      obtain ⟨left, -, rfl, hfront⟩ := hr.exists_left hts hp hlt
      rw [hfront]
      exact hr'.front_error rfl hn h

/-- Nothing of an empty beginning can be left over. -/
theorem Reports.front_ne_nil_of_ok (hr : Reports Before parser ts) {front more rest : List Lexeme}
    {a : α} (hts : ts = front ++ more) (hne : rest ≠ [])
    (h : parser ts = .ok (a, rest ++ more)) : front ≠ [] := by
  rintro rfl
  have hle := (hr.suffix h).length_le
  have hpos := List.length_pos_of_ne_nil hne
  rw [hts, List.nil_append, List.length_append] at hle
  omega

/-- No complaint can be about a token of an empty beginning. -/
theorem Reports.front_ne_nil_of_error (hr : Reports Before parser ts) {front more : List Lexeme}
    {n : Nat} {complaint : Complaint} (hts : ts = front ++ more) (hn : 0 < n)
    (h : parser ts = .error (.unexpected (n + more.length) complaint)) : front ≠ [] := by
  rintro rfl
  have hle := hr.le_length h
  rw [hts, List.nil_append] at hle
  omega

/-- Two parsers that do the same with all beginnings that are not empty. -/
theorem Reports.congr_cons (hr : Reports Before parser' (t :: rest))
    (h : ∀ front more, rest = front ++ more → parser (t :: front) = parser' (t :: front)) :
    Reports Before parser (t :: rest) := by
  have heq : parser (t :: rest) = parser' (t :: rest) := h rest [] (List.append_nil rest).symm
  have hfront {front more : List Lexeme} (hts : t :: rest = front ++ more) (hne : front ≠ []) :
      parser front = parser' front := by
    obtain ⟨t', front, rfl⟩ := List.exists_cons_of_ne_nil hne
    rw [List.cons_append] at hts
    obtain ⟨rfl, hrest⟩ := List.cons.inj hts
    exact h front more hrest
  refine ⟨fun h' => ?_, fun h' => ?_, fun hts hne h' => ?_, fun hts hn h' => ?_⟩
  all_goals rw [heq] at h'
  · exact hr.suffix h'
  · exact hr.stops h'
  · rw [hfront hts (hr.front_ne_nil_of_ok hts hne h')]
    exact hr.front_ok hts hne h'
  · rw [hfront hts (hr.front_ne_nil_of_error hts hn h')]
    exact hr.front_error hts hn h'

/-- A parser that has taken a token. -/
theorem Reports.cons
    (hr : Reports (fun used => Before (t :: used)) (fun rest => parser (t :: rest)) rest) :
    Reports Before parser (t :: rest) where
  suffix h := (hr.suffix h).trans (List.suffix_cons t rest)
  stops h := by
    obtain ⟨used, rest', hrest, hbefore, hblames⟩ := hr.stops h
    exact ⟨t :: used, rest', by rw [hrest, List.cons_append], hbefore, hblames⟩
  front_ok {front more a rest'} hts hne h := by
    cases front with
    | nil =>
      have hle := (hr.suffix h).length_le
      rw [List.nil_append] at hts
      rw [← hts, List.length_append, List.length_cons] at hle
      omega
    | cons t' front =>
      cases hts
      exact hr.front_ok rfl hne h
  front_error {front more n complaint} hts hn h := by
    cases front with
    | nil =>
      have hle := hr.le_length h
      rw [List.nil_append] at hts
      rw [← hts, List.length_cons] at hle
      omega
    | cons t' front =>
      cases hts
      exact hr.front_error rfl hn h

theorem reports_ok {a : α} : Reports Before (fun ts => .ok (a, ts)) ts where
  suffix h := by
    cases h
    exact List.suffix_refl ts
  stops h := by cases h
  front_ok hts _ h := by
    cases h
    rw [List.append_cancel_right hts]
  front_error _ _ h := by cases h

/-- A parser whose result is changed at the end. -/
theorem Reports.map {f : α → β} (hr : Reports Before parser ts) :
    Reports Before (fun ts => (parser ts).andThen fun a rest => .ok (f a, rest)) ts := by
  refine hr.andThen fun a rest h => ?_
  obtain ⟨used, hused⟩ := hr.suffix h
  exact ⟨used, hused.symm, reports_ok⟩

theorem reports_nil_ok {a : α} (h : parser [] = .ok (a, [])) : Reports Before parser [] := by
  refine ⟨fun h' => ?_, fun h' => ?_, fun hfront hne h' => ?_, fun _ _ h' => ?_⟩
  · cases h.symm.trans h'
    exact List.suffix_refl []
  · cases h.symm.trans h'
  · obtain ⟨rfl, rfl⟩ := List.append_eq_nil_iff.mp hfront.symm
    rw [List.append_nil] at h'
    exact h'
  · cases h.symm.trans h'

theorem reports_nil_ended {wanted : Wanted} (h : parser [] = .error (.ended wanted))
    (hbefore : Before []) : Reports Before parser [] := by
  refine ⟨fun h' => ?_, fun h' => ?_, fun _ _ h' => ?_, fun _ _ h' => ?_⟩
  all_goals cases h.symm.trans h'
  exact ⟨[], [], rfl, hbefore, .ended wanted⟩

/-- A parser that complains about the next token, whatever follows. -/
theorem reports_unexpected {complaint : Complaint}
    (h : ∀ rest, parser (t :: rest) = .error (.unexpected (rest.length + 1) complaint))
    (hblames : ∀ rest, Blames (t :: rest) (.unexpected (rest.length + 1) complaint))
    (hbefore : Before []) : Reports Before parser (t :: rest) := by
  refine ⟨fun h' => ?_, fun h' => ?_, fun _ _ h' => ?_, fun {front more n c} hfront hn h' => ?_⟩
  · cases (h rest).symm.trans h'
  · cases (h rest).symm.trans h'
    exact ⟨[], t :: rest, rfl, hbefore, hblames rest⟩
  · cases (h rest).symm.trans h'
  · have heq := (h rest).symm.trans h'
    injection heq with heq
    injection heq with hlen hcomplaint
    cases front with
    | nil =>
      have hmore := congrArg List.length hfront
      simp only [List.length_cons, List.nil_append] at hmore
      omega
    | cons t' front =>
      rw [List.cons_append] at hfront
      obtain ⟨rfl, rfl⟩ := List.cons.inj hfront
      rw [List.length_append] at hlen
      rw [h front, ← hcomplaint, show front.length + 1 = n by omega]

theorem reports_expect {token : Token} {Before : List Lexeme → Prop} (hbefore : Before []) :
    Reports Before (fun ts => outcome (expect token ts)) ts := by
  cases ts with
  | nil => exact reports_nil_ended rfl hbefore
  | cons t rest =>
    by_cases ht : t.token = token
    · refine .cons (.congr (fun rest => ?_) (reports_ok (a := t)))
      rw [outcome_expect_cons, if_pos ht]
    · refine reports_unexpected (fun rest => ?_) (fun _ => .token (.token token)) hbefore
      rw [outcome_expect_cons, if_neg ht]

/-- A token of a given kind, and then another parser. -/
theorem reports_expect_andThen {token : Token} {Before : List Lexeme → Prop}
    {next : Lexeme → List Lexeme → Outcome β} (hbefore : Before [])
    (hnext : ∀ t rest, ts = t :: rest → t.token = token →
      Reports (fun more => Before (t :: more)) (next t) rest) :
    Reports Before (fun ts => (outcome (expect token ts)).andThen next) ts := by
  refine (reports_expect hbefore).andThen fun t rest h => ?_
  obtain ⟨rfl, ht⟩ := reads_expect.mp (outcome_eq_ok_iff.mp h)
  exact ⟨[t], rfl, hnext t rest rfl ht⟩

end Stencil.Parser
