/-
Reading back what is spelled: an expression, spelled at a place for a rung, is read by the rule of
that rung, if what comes after does not go on with it (`Stops`). Rules that begin with themselves
are written as loops; `Leads` says how far a loop has come.
-/
import TypeInfer.Proofs.GivenTokens
import TypeInfer.Proofs.ReadExpression

namespace TypeInfer.Grammar

open List

variable {ts us ks : List TokenKind}

/-! ### Rungs -/

/-- The rule of a rung. -/
def ruleOf : Rung → Rules → Rule Expr
  | .conditional => expression
  | .or => orTest
  | .and => andTest
  | .not => notTest
  | .comparison => comparison
  | .bitOr => bitOr
  | .bitXor => bitXor
  | .bitAnd => bitAnd
  | .shift => shift
  | .arith => arith
  | .term => term
  | .factor => factor
  | .power => power
  | .await => awaited
  | .primary => primary
  | .atom => atom

/-- The binary operators that associate to the left on a rung. -/
def operatorOn : Rung → TokenKind → Option Operator
  | .term => termOperator
  | .arith => arithOperator
  | .shift => shiftOperator
  | .bitAnd => bitAndOperator
  | .bitXor => bitXorOperator
  | .bitOr => bitOrOperator
  | _ => fun _ => none

/-- The rungs whose expressions can begin with one of the same rung. -/
def isLoop : Rung → Bool
  | .bitOr | .bitXor | .bitAnd | .shift | .arith | .term | .primary => true
  | _ => false

/-- One more operator of the rung and its right operand. -/
def operatorStep (L : Rung) (r : Rules) (start : Span) (left : Expr) : Rule (Option Expr) := do
  match operatorOn L (← peek) with
  | none => return none
  | some op => do
    discard advance
    let right ← ruleOf L.tighter r
    return some (.binary (← finish start) left op right)

/-- What is added to an expression on such a rung. -/
def loopStep : Rung → Rules → Span → Expr → Rule (Option Expr)
  | .primary => trailer
  | L => operatorStep L

theorem ruleOf_loop {L} (h : isLoop L = true) (r : Rules) :
    ruleOf L r = (do
      let start ← here
      let first ← ruleOf L.tighter r
      iterate (loopStep L r start) (r.rounds + 1) first) := by
  cases L <;> first | rfl | cases h

/-- The loop of the rung comes to the place after the tokens, with rounds to spare. -/
def Leads (L : Rung) (r : Rules) (ts ks : List TokenKind) (P : Expr → Prop) : Prop :=
  ∀ c : Cursor, c.kinds = ts ++ ks → ∃ e rounds,
    ruleOf L r c = iterate (loopStep L r c.current.span) rounds e (c.past ts.length) ∧ ks.length < rounds ∧ P e

section

variable {L : Rung} {r : Rules} {P Q : Expr → Prop} {k : TokenKind} {op : Operator}

theorem Gives.leads (h : Gives (ruleOf L.tighter r) ts ks P) (hL : isLoop L = true) (hks : ks.length ≤ r.rounds) :
    Leads L r ts ks P := by
  intro c hc
  obtain ⟨e, hrule, he⟩ := h c hc
  refine ⟨e, r.rounds + 1, ?_, Nat.lt_succ_of_le hks, he⟩
  rw [ruleOf_loop hL]
  exact run_bind_ok hrule

theorem Leads.step (h : Leads L r ts (us ++ ks) P) (hpos : 0 < us.length)
    (hstep : ∀ start e, P e → Gives (loopStep L r start e) us ks fun o => ∃ e', o = some e' ∧ Q e') :
    Leads L r (ts ++ us) ks Q := by
  intro c hc
  rw [append_assoc] at hc
  obtain ⟨e, rounds, hrule, hrounds, he⟩ := h c hc
  obtain ⟨rounds, rfl⟩ := Nat.exists_eq_add_one_of_ne_zero (Nat.ne_zero_of_lt hrounds)
  have hpast : (c.past ts.length).kinds = us ++ ks := by rw [Cursor.kinds_past, hc, drop_left]
  obtain ⟨o, hround, e', rfl, he'⟩ := hstep c.current.span e he _ hpast
  refine ⟨e', rounds, ?_, ?_, he'⟩
  · rw [hrule, iterate, run_bind_ok hround, Cursor.past_past, length_append]
  · rw [length_append] at hrounds
    omega

/-- The loop ends where nothing is added. -/
theorem Leads.gives (h : Leads L r ts ks P) (hlast : ∀ start e, Gives (loopStep L r start e) [] ks fun o => o = none) :
    Gives (ruleOf L r) ts ks P := by
  intro c hc
  obtain ⟨e, rounds, hrule, hrounds, he⟩ := h c hc
  obtain ⟨rounds, rfl⟩ := Nat.exists_eq_add_one_of_ne_zero (Nat.ne_zero_of_lt hrounds)
  have hpast : (c.past ts.length).kinds = [] ++ ks := by rw [Cursor.kinds_past, hc, drop_left]; rfl
  obtain ⟨o, hround, rfl⟩ := hlast c.current.span e _ hpast
  refine ⟨e, ?_, he⟩
  rw [hrule, iterate, run_bind_ok hround]
  rfl

theorem goesOn_of_operatorOn (h : operatorOn L k = some op) : k.goesOn = some L := by
  cases L <;> simp only [operatorOn, termOperator, arithOperator, shiftOperator, bitAndOperator, bitXorOperator,
    bitOrOperator, reduceCtorEq] at h <;> split at h <;> first | rfl | cases h

theorem goesOn_of_comparisonOf {next found} (h : comparisonOf k next = some found) :
    k.goesOn = some .comparison := by
  unfold comparisonOf at h
  split at h <;> first | rfl | cases h

/-- One more comparison and its operand. -/
def comparisonStep (r : Rules) : Rule (Option (CmpOperator × Expr)) := do
  match comparisonOf (← peek) (← peekNext) with
  | none => return none
  | some (op, two) => do
    discard advance
    if two then discard advance
    return some (op, ← bitOr r)

theorem comparison_eq (r : Rules) : comparison r = (do
    let start ← here
    let left ← bitOr r
    let more ← many (comparisonStep r) (r.rounds + 1)
    if more.isEmpty then return left
    return .compare (← finish start) left (more.map Prod.fst) (more.map Prod.snd)) := rfl

theorem gives_last_comparison (h : Rung.comparison.Stops ks) : Gives (comparisonStep r) [] ks fun o => o = none := by
  refine gives_peek (gives_peekNext ?_)
  have hnone : comparisonOf (ks.headD .eof) (ks.tail.headD .eof) = none :=
    Option.eq_none_iff_forall_ne_some.2 fun _ hop => h.goesOn_ne (goesOn_of_comparisonOf hop)
  rw [nil_append, hnone]
  exact gives_pure rfl

theorem operatorOn_eq_none (h : L.Stops ks) : operatorOn L (ks.headD .eof) = none :=
  Option.eq_none_iff_forall_ne_some.2 fun _ hop => h.goesOn_ne (goesOn_of_operatorOn hop)

theorem operatorOn_mark (h : op ≠ .pow) : operatorOn op.rung (.symbol op.mark) = some op := by
  cases op <;> first | rfl | contradiction

theorem head_ne_of_stops {k} (h : L.Stops ks) (hk : k.goesOn = some L) : ks.headD .eof ≠ k := by
  rintro rfl
  exact h.goesOn_ne hk

theorem gives_last_round (hL : isLoop L = true) (h : L.Stops ks) (start : Span) (e : Expr) :
    Gives (loopStep L r start e) [] ks fun o => o = none := by
  have hoperator : Gives (operatorStep L r start e) [] ks fun o => o = none := by
    refine gives_peek ?_
    rw [nil_append, operatorOn_eq_none h]
    exact gives_pure rfl
  cases L with
  | primary =>
    refine gives_eat_of_ne (head_ne_of_stops h rfl) ?_
    refine gives_eat_of_ne (head_ne_of_stops h rfl) ?_
    exact gives_eat_of_ne (head_ne_of_stops h rfl) (gives_pure rfl)
  | _ => exact hoperator

/-- What is read on the next tighter rung is read on the rung, unless more follows there. -/
theorem Gives.looser (h : Gives (ruleOf L.tighter r) ts ks P) (hL : L ≠ .atom) (hbegins : L.tighter.Begins ts)
    (hstops : L.Stops ks) (hks : ks.length ≤ r.rounds) : Gives (ruleOf L r) ts ks P := by
  have hlt : L.height < L.tighter.height := by rw [Rung.height_tighter hL]; omega
  cases hloop : isLoop L with
  | true => exact (h.leads hloop hks).gives (gives_last_round hloop hstops)
  | false =>
    -- a rung with a mark before its expressions goes by the first token, the others by what comes after
    cases L with
    | conditional =>
      refine gives_check_of_ne (hbegins.head_ne (by nofun) ks) (gives_here fun start => ?_)
      refine h.pack fun e he => gives_eat_of_ne (head_ne_of_stops hstops rfl) (gives_pure he)
    | or =>
      refine gives_here fun start => h.pack fun e he => ?_
      exact gives_check_of_ne (head_ne_of_stops hstops rfl) (gives_pure he)
    | and =>
      refine gives_here fun start => h.pack fun e he => ?_
      exact gives_check_of_ne (head_ne_of_stops hstops rfl) (gives_pure he)
    | not =>
      refine gives_here fun start => gives_eat_of_ne (hbegins.head_ne ?_ ks) h
      rintro K ⟨⟩
      exact hlt
    | comparison =>
      rw [show ruleOf .comparison r = comparison r from rfl, comparison_eq]
      refine gives_here fun start => h.pack fun e he => ?_
      have hmore : Gives (many (comparisonStep r) (r.rounds + 1)) [] ks fun more => more = [] :=
        (gives_last_comparison hstops).pack fun o ho => ho ▸ gives_pure rfl
      exact hmore.pack fun more hmore => hmore ▸ gives_pure he
    | factor =>
      refine gives_here fun start => gives_peek ?_
      have hsign : signOf ((ts ++ ks).headD .eof) = none := by
        obtain ⟨k, us, K, rfl, hk, hle⟩ := hbegins
        show signOf k = none
        unfold signOf
        split <;> first | rfl | (cases hk; exact absurd hle (by decide))
      rw [hsign]
      exact h
    | power =>
      refine gives_here fun start => h.pack fun e he => ?_
      exact gives_eat_of_ne (head_ne_of_stops hstops rfl) (gives_pure he)
    | await =>
      refine gives_here fun start => gives_eat_of_ne (hbegins.head_ne ?_ ks) h
      rintro K ⟨⟩
      exact hlt
    | atom => contradiction
    | _ => cases hloop

/-- What is read on a tighter rung is read on a looser one, unless more follows between them. -/
theorem Gives.descend {K} (h : Gives (ruleOf K r) ts ks P) (hle : L.height ≤ K.height)
    (hbegins : K.Begins ts) (hstops : L.Stops ks) (hks : ks.length ≤ r.rounds) :
    Gives (ruleOf L r) ts ks P := by
  induction hd : K.height - L.height generalizing L with
  | zero =>
    obtain rfl : K = L := Rung.height_inj (by omega)
    exact h
  | succ d ih =>
    have hL : L ≠ .atom := by
      rintro rfl
      have hatom := K.height_le_atom
      omega
    have htighter := Rung.height_tighter hL
    have htight : Gives (ruleOf L.tighter r) ts ks P := ih (by omega) (hstops.mono (by omega)) (by omega)
    exact htight.looser hL (hbegins.mono (by omega)) hstops hks

end

/-! ### Expressions in brackets -/

section

variable {L : Rung} {r : Rules} {P : Expr → Prop} {Q : α → Prop}

theorem ne_of_closes {k k' : TokenKind} (h : k.closes = true) (h' : k'.closes = false) : k ≠ k' := by
  rintro rfl
  rw [h] at h'
  cases h'

theorem binds_eq_false {k : TokenKind} (h : k.closes = true) : k.binds = false := by
  unfold TokenKind.closes at h
  split at h <;> first | rfl | cases h

theorem ne_of_binds {k k' : TokenKind} (h : k.binds = false) (h' : k'.binds = true) : k ≠ k' := by
  rintro rfl
  rw [h] at h'
  cases h'

theorem gives_no_comprehension {f : Bool → Rule α} {Q : α → Prop} (hclose : ((ts ++ ks).headD .eof).closes = true)
    (h : Gives (f false) ts ks Q) : Gives (atComprehension >>= f) ts ks Q := by
  have hnone : Gives atComprehension [] (ts ++ ks) fun found => found = false := by
    refine gives_check_of_ne (ne_of_closes hclose rfl) ?_
    exact gives_check_of_ne (ne_of_closes hclose rfl) (gives_peekNext (gives_pure rfl))
  refine hnone.bind fun found hfound => ?_
  subst hfound
  exact h

/-- No name is bound where the second token binds none. -/
theorem gives_unbound {mark : TokenKind} {x y : Rule α} (hnext : (ts ++ ks).tail.headD .eof ≠ mark)
    (h : Gives y ts ks Q) :
    Gives (do if (← atIdentifier) && (← peekNext) == mark then x else y) ts ks Q := by
  intro c hc
  have hne : c.nextKind ≠ mark := by rwa [c.nextKind_eq, hc]
  show ∃ a, (if (_ && c.nextKind == mark) = true then x else y) c = _ ∧ _
  rw [beq_eq_false_iff_ne.2 hne, Bool.and_false, if_neg Bool.false_ne_true]
  exact h c hc

/-- An expression is read with no name bound to it. -/
theorem gives_named (h : Gives r.expression ts ks P) (hbegins : L.Begins ts) (hts : Unbound ts)
    (hks : (ks.headD .eof).closes = true) : Gives (named r) ts ks P := by
  have hnext := hts.second hbegins (binds_eq_false hks)
  exact gives_unbound (ne_of_binds hnext rfl) h

theorem gives_starredOrNamed (h : Gives r.expression ts ks P) (hbegins : L.Begins ts) (hts : Unbound ts)
    (hks : (ks.headD .eof).closes = true) : Gives (starredOrNamed r) ts ks P :=
  gives_here fun _ => gives_eat_of_ne (hbegins.head_ne (by nofun) ks) (gives_named h hbegins hts hks)

/-- An expression in parentheses is that expression. -/
theorem gives_parenthesized (h : Gives r.expression ts (.symbol .rightParen :: ks) P) (hbegins : L.Begins ts)
    (hts : Unbound ts) : Gives (parenthesized r) (.symbol .leftParen :: (ts ++ [.symbol .rightParen])) ks P := by
  refine gives_here fun start => gives_take ?_
  refine gives_eat_of_ne ((hbegins.append _).head_ne (by nofun) ks) ?_
  refine gives_check_of_ne ((hbegins.append _).head_ne (by nofun) ks) ?_
  refine (gives_starredOrNamed h hbegins hts rfl).bind fun e he => ?_
  exact gives_no_comprehension rfl (gives_check_of_ne (by simp) (gives_expect (gives_pure he)))

theorem gives_argument (h : Gives r.expression ts ks P) (hbegins : L.Begins ts) (hts : Unbound ts)
    (hks : (ks.headD .eof).closes = true) : Gives (argument r) ts ks fun a => ∃ e, a = .positional e ∧ P e := by
  refine gives_eat_of_ne (hbegins.head_ne (by nofun) ks) ?_
  refine gives_eat_of_ne (hbegins.head_ne (by nofun) ks) ?_
  have hnext := hts.second hbegins (binds_eq_false hks)
  refine gives_unbound (ne_of_binds hnext rfl) (gives_here fun start => ?_)
  refine (gives_named h hbegins hts hks).pack fun e he => ?_
  exact gives_no_comprehension hks (gives_pure ⟨e, rfl, he⟩)

theorem gives_subscript (h : Gives r.expression ts (.symbol .rightBracket :: ks) P) (hbegins : L.Begins ts)
    (hts : Unbound ts) : Gives (subscript r) ts (.symbol .rightBracket :: ks) P := by
  have hitem : Gives (sliceItem r) ts (.symbol .rightBracket :: ks) P := by
    refine gives_here fun start => gives_check_of_ne (hbegins.head_ne (by nofun) _) ?_
    refine (gives_starredOrNamed h hbegins hts rfl).pack fun e he => ?_
    exact gives_check_of_ne (by simp) (gives_pure he)
  refine gives_here fun start => hitem.pack fun e he => ?_
  exact gives_check_of_ne (by simp) (gives_pure he)

end

/-! ### Reading back -/

/-- The expressions are the same but for their places. -/
def Same (e e' : Expr) : Prop := e'.unplaced = e.unplaced

/-- The expression is read by the rule of its own rung, or wherever the loop of it can come to. -/
structure ReadsBack (e : Expr) : Prop where
  onLadder : e.OnLadder
  own : ∀ (n : Nat) (ks : List TokenKind), e.rung.Stops ks → e.tokens.length + ks.length ≤ n →
    Gives (ruleOf e.rung (rules n)) e.tokens ks (Same e)
  loop : isLoop e.rung = true → ∀ (n : Nat) (ks : List TokenKind), e.rung.tighter.Stops ks →
    e.tokens.length + ks.length ≤ n → Leads e.rung (rules n) e.tokens ks (Same e)

namespace ReadsBack

variable {e value : Expr} {n : Nat} (span : Span) {es : List Expr} (op : CmpOperator)
  {close : Symbol}

theorem of_gives (h : e.OnLadder) (hloop : isLoop e.rung = false)
    (hown : ∀ (n : Nat) (ks : List TokenKind), e.rung.Stops ks → e.tokens.length + ks.length ≤ n →
      Gives (ruleOf e.rung (rules n)) e.tokens ks (Same e)) : ReadsBack e :=
  ⟨h, hown, fun hL => absurd hL (by rw [hloop]; exact Bool.false_ne_true)⟩

theorem of_leads (h : e.OnLadder) (hloop : isLoop e.rung = true)
    (hleads : ∀ (n : Nat) (ks : List TokenKind), e.rung.tighter.Stops ks → e.tokens.length + ks.length ≤ n →
      Leads e.rung (rules n) e.tokens ks (Same e)) : ReadsBack e where
  onLadder := h
  own n ks hstops hn :=
    (hleads n ks (hstops.mono (Rung.height_le_tighter _)) hn).gives (gives_last_round hloop hstops)
  loop _ := hleads

section

variable (h : ReadsBack e)
include h

/-- In parentheses an expression is an atom. -/
theorem parens (hn : e.tokens.length + ks.length + 1 < n) :
    Gives (ruleOf .atom (rules n)) (.symbol .leftParen :: (e.tokens ++ [.symbol .rightParen])) ks (Same e) := by
  obtain ⟨n, rfl⟩ := Nat.exists_eq_add_one_of_ne_zero (Nat.ne_zero_of_lt hn)
  have hstops (L : Rung) : L.Stops (.symbol .rightParen :: ks) := Rung.stops_of_closes rfl L
  have hown := h.own n (.symbol .rightParen :: ks) (hstops _) (by rw [length_cons]; omega)
  have hinside : Gives (ruleOf .conditional (rules n)) e.tokens (.symbol .rightParen :: ks) (Same e) :=
    hown.descend (Nat.zero_le _) h.onLadder.begins (hstops _) (by rw [rounds_rules, length_cons]; omega)
  exact gives_here fun start => gives_peek (gives_parenthesized hinside h.onLadder.begins h.onLadder.unbound)

/-- An expression that is read on its own rung is read at every place. -/
theorem reads (L : Rung) (hstops : L.Stops ks) (hn : (L.spell e).length + ks.length ≤ n) :
    Gives (ruleOf L (rules n)) (L.spell e) ks (Same e) := by
  have hks : ks.length ≤ (rules n).rounds := by rw [rounds_rules]; omega
  by_cases hlt : e.rung.height < L.height
  · rw [Rung.spell_of_lt hlt] at hn ⊢
    simp only [length_cons, length_append, length_nil] at hn
    have hatom := h.parens (show e.tokens.length + ks.length + 1 < n by omega)
    exact hatom.descend L.height_le_atom ⟨_, _, .atom, rfl, rfl, Nat.le_refl _⟩ hstops hks
  · have hle := Nat.not_lt.1 hlt
    rw [Rung.spell_of_le hle] at hn ⊢
    exact (h.own n ks (hstops.mono hle) hn).descend hle h.onLadder.begins hstops hks

/-- In the loop of a rung the expression is read on that rung, or on the next tighter one. -/
theorem leads (L : Rung) (hL : isLoop L = true) (hstops : L.tighter.Stops ks) (hn : (L.spell e).length + ks.length ≤ n) :
    Leads L (rules n) (L.spell e) ks (Same e) := by
  by_cases hrung : e.rung = L
  · subst hrung
    rw [Rung.spell_of_le (Nat.le_refl _)] at hn ⊢
    exact h.loop hL n ks hstops hn
  · have hatom : L ≠ .atom := by rintro rfl; cases hL
    rw [← Rung.spell_tighter hatom hrung] at hn ⊢
    exact (h.reads L.tighter hstops hn).leads hL (by rw [rounds_rules]; omega)

theorem inside (L : Rung) {rule : Rules → Rule Expr} (hrule : ∀ m, rule (rules (m + 1)) = ruleOf L (rules m))
    (hstops : L.Stops ks) (hn : (L.spell e).length + ks.length < n) :
    Gives (rule (rules n)) (L.spell e) ks (Same e) := by
  obtain ⟨n, rfl⟩ := Nat.exists_eq_add_one_of_ne_zero (Nat.ne_zero_of_lt hn)
  rw [hrule]
  exact h.reads L hstops (Nat.le_of_lt_succ hn)

theorem begins_spell (L : Rung) : L.Begins (L.spell e) := Rung.begins_spell h.onLadder.begins L

theorem unbound_spell (L : Rung) : Unbound (L.spell e) :=
  TypeInfer.unbound_spell h.onLadder.unbound L

end

/-! ### Expression by expression -/

theorem of_trailer {value} (hvalue : ReadsBack value) (h : e.OnLadder) (hrung : e.rung = .primary)
    (htokens : e.tokens = Rung.primary.spell value ++ us) (hpos : 0 < us.length)
    (hstep : ∀ (n : Nat) (ks : List TokenKind) (start : Span) (value' : Expr), us.length + ks.length < n → Same value value' → Gives (trailer (rules n) start value') us ks fun o => ∃ e', o = some e' ∧ Same e e') :
    ReadsBack e := by
  have hlength := (hvalue.begins_spell .primary).length_pos
  refine of_leads h (by rw [hrung]; rfl) fun n ks _ hn => ?_
  rw [hrung, htokens]
  rw [htokens, length_append] at hn
  have hleft := hvalue.leads .primary rfl (Rung.stops_atom _) (show _ + (us ++ ks).length ≤ n by
    rw [length_append]
    omega)
  exact hleft.step hpos fun start value' => hstep n ks start value' (by omega)

theorem attr (name : Ident) (h : ReadsBack value) : ReadsBack (.attribute span value name) := by
  refine of_trailer h (.attr span name h.onLadder) rfl (Expr.tokens_attribute span value name) (Nat.succ_pos _) ?_
  intro n ks start value' _ hvalue
  refine gives_eat (gives_identifier fun _ => gives_finish fun _ => gives_pure ⟨_, rfl, ?_⟩)
  unfold Same Expr.unplaced
  rw [hvalue]

theorem subscript {value index : Expr} (span : Span) (hvalue : ReadsBack value) (hindex : ReadsBack index) :
    ReadsBack (.subscript span value index) := by
  refine of_trailer hvalue (.subscript span hvalue.onLadder hindex.onLadder) rfl
    (Expr.tokens_subscript span value index) (Nat.succ_pos _) ?_
  intro n ks start value' hn hvalue
  simp only [length_append, length_cons, length_nil] at hn
  refine gives_eat_of_ne (by simp) (gives_eat_of_ne (by simp) (gives_eat ?_))
  have hinside : Gives (rules n).expression _ (.symbol .rightBracket :: ks) (Same index) :=
    hindex.inside .conditional (fun _ => rfl) (Rung.stops_of_closes rfl _) (by rw [length_cons]; omega)
  refine Gives.bind (gives_subscript hinside (hindex.begins_spell _) (hindex.unbound_spell _)) fun index' hindex => ?_
  refine gives_expect (gives_finish fun _ => gives_pure ⟨_, rfl, ?_⟩)
  unfold Same Expr.unplaced
  rw [hvalue, hindex]

theorem gives_arguments {es : List Expr} (h : ∀ e ∈ es, ReadsBack e)
    (hn : (joined (.symbol .comma) (es.map Rung.conditional.spell)).length + (ks.length + 1) < n) :
    Gives (arguments (rules n)) (joined (.symbol .comma) (es.map Rung.conditional.spell) ++ [.symbol .rightParen]) ks
      fun args => args.map Arg.unplaced = es.map fun e => .positional e.unplaced := by
  have hargs : Gives (separated (check Symbol.rightParen) (argument (rules n)) ((rules n).rounds + 1))
      (joined (.symbol .comma) (es.map Rung.conditional.spell)) (.symbol .rightParen :: ks)
      fun args => args.map Arg.unplaced = es.map fun e => .positional e.unplaced := by
    refine gives_separated (by simp) (fun e he later hlater hlength => ?_) (fun e he later => ?_) hn ?_
    · have hcloses : (later.headD .eof).closes = true := by rcases hlater with hlater | hlater <;> rw [hlater] <;> rfl
      have hinside : Gives (rules n).expression _ later (Same e) :=
        (h e he).inside .conditional (fun _ => rfl) (Rung.stops_of_closes hcloses _) hlength
      refine (gives_argument hinside ((h e he).begins_spell _) ((h e he).unbound_spell _) hcloses).mono ?_
      rintro a ⟨e', rfl, he'⟩
      rw [Arg.unplaced, he']
    · exact ((h e he).begins_spell _).head_ne (by nofun) later
    · rw [rounds_rules]
      omega
  exact hargs.bind fun args hargs => gives_expect (gives_pure hargs)

theorem call {func : Expr} (hfunc : ReadsBack func) (hes : ∀ e ∈ es, ReadsBack e) :
    ReadsBack (.call span func (es.map .positional)) := by
  refine of_trailer hfunc (.call span hfunc.onLadder fun e he => (hes e he).onLadder) rfl
    (Expr.tokens_call span func es) (Nat.succ_pos _) ?_
  intro n ks start func' hn hfunc
  simp only [length_append, length_cons, length_nil] at hn
  refine gives_eat_of_ne (by simp) (gives_eat ?_)
  refine (gives_arguments hes (by omega)).pack fun args hargs => gives_finish fun _ => gives_pure ⟨_, rfl, ?_⟩
  unfold Same Expr.unplaced
  rw [Arg.allUnplaced_eq, Arg.allUnplaced_eq, hfunc, hargs, map_map]
  rfl

theorem binary {left right} (span : Span) {op} (hop : op ≠ .pow) (hleft : ReadsBack left)
    (hright : ReadsBack right) : ReadsBack (.binary span left op right) := by
  have hloop : isLoop op.rung = true := by cases op <;> first | rfl | contradiction
  have hplaces : op.leftPlace = op.rung ∧ op.rightPlace = op.rung.tighter := ⟨if_neg hop, if_neg hop⟩
  have hlt : op.rung.height < op.rung.tighter.height := by cases op <;> decide
  have hstep (r : Rules) : loopStep op.rung r = operatorStep op.rung r := by cases op <;> rfl
  refine of_leads (.binary span op hleft.onLadder hright.onLadder) hloop fun n ks hstops hn => ?_
  rw [Expr.tokens_binary, hplaces.1, hplaces.2] at hn ⊢
  simp only [length_append, length_cons] at hn
  refine Leads.step (hleft.leads op.rung hloop (Rung.stops_mark hlt _) ?_) (Nat.succ_pos _) fun start e he => ?_
  · simp only [length_append, length_cons]
    omega
  rw [show (Expr.binary span left op right).rung = op.rung from rfl, hstep]
  refine gives_peek ?_
  rw [cons_append, headD_cons, operatorOn_mark hop]
  refine gives_take (Gives.pack (hright.reads _ hstops (by omega)) fun e' he' => ?_)
  refine gives_finish fun _ => gives_pure ⟨_, rfl, ?_⟩
  unfold Same Expr.unplaced
  rw [he, he']

theorem pow {left right : Expr} (span : Span) (hleft : ReadsBack left) (hright : ReadsBack right) :
    ReadsBack (.binary span left .pow right) := by
  refine of_gives (.binary span .pow hleft.onLadder hright.onLadder) rfl fun n ks hstops hn => ?_
  rw [Expr.tokens_binary, show Operator.pow.leftPlace = .await from rfl,
    show Operator.pow.rightPlace = .factor from rfl] at hn ⊢
  simp only [length_append, length_cons] at hn
  refine gives_here fun start => Gives.bind (hleft.reads .await (Rung.stops_mark (by decide) _) ?_) fun e he => ?_
  · simp only [length_append, length_cons]
    omega
  refine gives_eat (Gives.pack (hright.inside .factor (fun _ => rfl) hstops.factor (by omega)) fun e' he' => ?_)
  refine gives_finish fun _ => gives_pure ?_
  unfold Same Expr.unplaced
  rw [he, he']

theorem unary {operand : Expr} (span : Span) (op : UnaryOperator) (h : ReadsBack operand) :
    ReadsBack (.unary span op operand) := by
  refine of_gives (.unary span op h.onLadder) (by cases op <;> rfl) fun n ks hstops hn => ?_
  rw [Expr.tokens_unary] at hn ⊢
  rw [length_cons] at hn
  have hlt : (op.rung.spell operand).length + ks.length < n := by omega
  have hsame {e : Expr} (he : Same operand e) (s : Span) : Same (.unary span op operand) (.unary s op e) := by
    unfold Same Expr.unplaced
    rw [he]
  cases hop : op with
  | not =>
    subst hop
    refine gives_here fun start => gives_eat ?_
    refine Gives.pack (h.inside .not (fun _ => rfl) hstops hlt) fun e he => ?_
    exact gives_finish fun _ => gives_pure (hsame he _)
  | neg | pos | invert =>
    subst hop
    refine gives_here fun start => gives_peek (gives_take ?_)
    refine Gives.pack (h.inside .factor (fun _ => rfl) hstops hlt) fun e he => ?_
    exact gives_finish fun _ => gives_pure (hsame he _)

theorem await {value} (span : Span) (h : ReadsBack value) : ReadsBack (.await span value) := by
  refine of_gives (.await span h.onLadder) rfl fun n ks hstops hn => ?_
  rw [Expr.tokens_await] at hn ⊢
  rw [length_cons] at hn
  have hvalue := h.reads .primary (hstops.mono Rung.await.height_le_tighter) (show _ ≤ n by omega)
  refine gives_here fun start => gives_eat (hvalue.pack fun e he => gives_finish fun _ => gives_pure ?_)
  unfold Same Expr.unplaced
  rw [he]

theorem conditional {test body orElse : Expr} (span : Span) (htest : ReadsBack test) (hbody : ReadsBack body)
    (hor : ReadsBack orElse) : ReadsBack (.conditional span test body orElse) := by
  have honLadder := Expr.OnLadder.conditional span htest.onLadder hbody.onLadder hor.onLadder
  refine of_gives honLadder rfl fun n ks hstops hn => ?_
  refine gives_check_of_ne (honLadder.begins.head_ne (by nofun) ks) (gives_here fun start => ?_)
  rw [Expr.tokens_conditional] at hn ⊢
  simp only [length_append, length_cons] at hn
  refine Gives.bind (hbody.reads .or (Rung.stops_if _) ?_) fun body' hbody' => gives_eat ?_
  · simp only [length_append, length_cons]
    omega
  refine Gives.bind (htest.inside .or (fun _ => rfl) (Rung.stops_of_closes rfl _) ?_) fun test' htest' => ?_
  · simp only [length_append, length_cons]
    omega
  refine gives_expect (Gives.pack (hor.inside .conditional (fun _ => rfl) hstops (by omega)) fun orElse' hor' => ?_)
  refine gives_finish fun _ => gives_pure ?_
  unfold Same Expr.unplaced
  rw [hbody', htest', hor']

theorem gives_chainTokens {op es} (h : ∀ e ∈ es, ReadsBack e) (hstops : op.rung.Stops ks)
    (hn : (Expr.chainTokens op es).length + ks.length ≤ n) :
    Gives (many (optional (eat op.word) (ruleOf op.rung.tighter (rules n))) ((rules n).rounds + 1))
      (Expr.chainTokens op es) ks fun more => more.map Expr.unplaced = es.map Expr.unplaced := by
  unfold Expr.chainTokens at hn ⊢
  refine gives_many (n := n) (fun e he later hlater hlength => gives_eat ?_)
    (fun e he later => ⟨Rung.stops_word op _, Nat.succ_pos _⟩) ?_ (hstops.mono (Rung.height_le_tighter _)) hn ?_
  · rw [length_cons] at hlength
    exact Gives.pack ((h e he).reads _ hlater (by omega)) fun e' he' => gives_pure ⟨e', rfl, he'⟩
  · exact gives_eat_of_ne (head_ne_of_stops hstops (by cases op <;> rfl)) (gives_pure rfl)
  · rw [rounds_rules]
    omega

theorem boolean {v w vs} (span : Span) (op : BoolOperator) (h : ∀ e ∈ v :: w :: vs, ReadsBack e) :
    ReadsBack (.boolean span op (v :: w :: vs)) := by
  have honLadder := Expr.OnLadder.boolean span op (by simp) fun e he => (h e he).onLadder
  obtain ⟨hv, hws⟩ := forall_mem_cons.1 h
  have hrule (r : Rules) :
      ruleOf op.rung r = booleanChain r.rounds op.word op (ruleOf op.rung.tighter r) := by cases op <;> rfl
  refine of_gives honLadder (by cases op <;> rfl) fun n ks hstops hn => ?_
  rw [Expr.tokens_boolean] at hn ⊢
  rw [length_append] at hn
  rw [show (Expr.boolean span op (v :: w :: vs)).rung = op.rung from rfl] at hstops ⊢
  rw [hrule]
  refine gives_here fun start => Gives.bind (hv.reads _ (Rung.stops_word op _) ?_) fun v' hv' => gives_check rfl ?_
  · rw [length_append]
    omega
  refine (gives_chainTokens hws hstops (by omega)).pack fun more hmore => gives_finish fun _ => gives_pure ?_
  unfold Same Expr.unplaced
  rw [Expr.allUnplaced_eq, Expr.allUnplaced_eq, map_cons, map_cons, hv', hmore]

theorem comparisonOf_tokens (hbegins : Rung.bitOr.Begins ts) :
    comparisonOf ((op.tokens ++ ts).headD .eof) ((op.tokens ++ ts).tail.headD .eof) =
      some (op, op.tokens.length == 2) := by
  obtain ⟨k, us, K, rfl, hk, hle⟩ := hbegins
  have hnot : k ≠ .keyword .notKw := by
    rintro rfl
    cases hk
    exact absurd hle (by decide)
  cases op with
  | is =>
    show comparisonOf (.keyword .isKw) k = some (.is, false)
    unfold comparisonOf
    split <;> simp_all
  | _ => rfl

theorem gives_comparison (op : CmpOperator) (h : ReadsBack e) (hstops : Rung.bitOr.Stops ks)
    (hn : (Rung.bitOr.spell e).length + ks.length ≤ n) :
    Gives (comparisonStep (rules n)) (op.tokens ++ Rung.bitOr.spell e) ks
      fun o => ∃ p, o = some p ∧ (p.1, p.2.unplaced) = (op, e.unplaced) := by
  have hoperand : Gives (bitOr (rules n) >>= fun e' => pure (some (op, e'))) (Rung.bitOr.spell e) ks
      fun o => ∃ p, o = some p ∧ (p.1, p.2.unplaced) = (op, e.unplaced) :=
    Gives.pack (h.reads .bitOr hstops hn) fun e' he' => gives_pure ⟨(op, e'), rfl, by rw [he']⟩
  refine gives_peek (gives_peekNext ?_)
  rw [append_assoc, comparisonOf_tokens op ((h.begins_spell .bitOr).append ks)]
  cases op with
  | isNot | notIn => exact gives_take (gives_take hoperand)
  | _ => exact gives_take hoperand

theorem gives_comparisonTokens {pairs} (h : ∀ p ∈ pairs, ReadsBack p.2)
    (hstops : Rung.comparison.Stops ks) (hn : (Expr.comparisonTokens pairs).length + ks.length ≤ n) :
    Gives (many (comparisonStep (rules n)) ((rules n).rounds + 1)) (Expr.comparisonTokens pairs) ks
      fun more => (more.map fun p => (p.1, p.2.unplaced)) = pairs.map fun p => (p.1, p.2.unplaced) := by
  unfold Expr.comparisonTokens at hn ⊢
  refine gives_many (n := n) (fun p hp later hlater hlength => ?_) (fun p hp later => ?_)
    (gives_last_comparison hstops) (hstops.mono Rung.comparison.height_le_tighter) hn ?_
  · rw [length_append] at hlength
    exact gives_comparison p.1 (h p hp) hlater (by omega)
  · rw [append_assoc]
    exact ⟨Rung.stops_comparison p.1 _, by cases p.1 <;> simp [CmpOperator.tokens]⟩
  · rw [rounds_rules]
    omega

theorem compare {left ops comparators} (span : Span) (hops : ops ≠ [])
    (hlength : ops.length = comparators.length) (hleft : ReadsBack left)
    (h : ∀ e ∈ comparators, ReadsBack e) : ReadsBack (.compare span left ops comparators) := by
  have honLadder := Expr.OnLadder.compare span hleft.onLadder hops hlength fun e he => (h e he).onLadder
  have hpairs : ∀ p ∈ ops.zip comparators, ReadsBack p.2 := fun p hp => h p.2 (of_mem_zip hp).2
  have hfst : (ops.zip comparators).map Prod.fst = ops := map_fst_zip (Nat.le_of_eq hlength)
  have hsnd : (ops.zip comparators).map Prod.snd = comparators := map_snd_zip (Nat.le_of_eq hlength.symm)
  refine of_gives honLadder rfl fun n ks hstops hn => ?_
  rw [Expr.tokens_compare] at hn ⊢
  rw [length_append] at hn
  show Gives (comparison (rules n)) _ _ _
  rw [comparison_eq]
  generalize ops.zip comparators = pairs at hpairs hfst hsnd hn ⊢
  subst hfst hsnd
  have hfirst : Rung.bitOr.Stops (Expr.comparisonTokens pairs ++ ks) := by
    cases pairs with
    | nil => contradiction
    | cons p pairs =>
      rw [Expr.comparisonTokens, flatMap_cons, append_assoc, append_assoc]
      exact Rung.stops_comparison p.1 _
  refine gives_here fun start => Gives.bind (hleft.reads .bitOr hfirst ?_) fun left' hleft' => ?_
  · rw [length_append]
    omega
  refine (gives_comparisonTokens hpairs hstops (by omega)).pack fun more hmore => ?_
  have hfsts : more.map Prod.fst = pairs.map Prod.fst := by
    simpa [Function.comp_def] using congrArg (List.map Prod.fst) hmore
  have hsnds : (more.map Prod.snd).map Expr.unplaced = (pairs.map Prod.snd).map Expr.unplaced := by
    simpa [Function.comp_def] using congrArg (List.map Prod.snd) hmore
  have hempty : more.isEmpty = false := by
    rw [isEmpty_eq_false_iff]
    rintro rfl
    exact hops hfsts.symm
  rw [hempty]
  refine gives_finish fun _ => gives_pure ?_
  unfold Same Expr.unplaced
  rw [Expr.allUnplaced_eq, Expr.allUnplaced_eq, hleft', hfsts, hsnds]

/-- An element of a tuple or a list. -/
theorem element (h : ReadsBack e) (hks : (ks.headD .eof).closes = true)
    (hn : (Rung.conditional.spell e).length + ks.length < n) :
    Gives (starredOrNamed (rules n)) (Rung.conditional.spell e) ks (Same e) := by
  have hinside : Gives (rules n).expression _ ks (Same e) :=
    h.inside .conditional (fun _ => rfl) (Rung.stops_of_closes hks _) hn
  exact gives_starredOrNamed hinside (h.begins_spell _) (h.unbound_spell _) hks

theorem gives_elements {r first what} (hfirst : Same e first)
    (h : Gives (commaList (r.rounds + 1) (check close) (starredOrNamed r)) ts (.symbol close :: ks) fun more => more.map Expr.unplaced = es.map Expr.unplaced) :
    Gives (elements r first close what) (ts ++ [.symbol close]) ks
      fun elts => Expr.allUnplaced elts = Expr.allUnplaced (e :: es) := by
  refine h.bind fun more hmore => gives_expect (gives_pure ?_)
  rw [Expr.allUnplaced_eq, Expr.allUnplaced_eq, map_cons, map_cons, hmore, hfirst]

theorem gives_moreTokens {es : List Expr} {close : Symbol} (h : ∀ e ∈ es, ReadsBack e)
    (hclose : close = .rightParen ∨ close = .rightBracket) (hn : (Expr.moreTokens es).length + (ks.length + 1) ≤ n) :
    Gives (commaList ((rules n).rounds + 1) (check close) (starredOrNamed (rules n))) (Expr.moreTokens es)
      (.symbol close :: ks) fun more => more.map Expr.unplaced = es.map Expr.unplaced := by
  have hcloses : (TokenKind.symbol close).closes = true := by rcases hclose with rfl | rfl <;> rfl
  have hbegins : (TokenKind.symbol close).begins = none := by rcases hclose with rfl | rfl <;> rfl
  have hcomma : TokenKind.symbol close ≠ .symbol .comma := by rcases hclose with rfl | rfl <;> simp
  unfold Expr.moreTokens at hn ⊢
  refine gives_many (n := n) (fun e he later (hlater : (later.headD .eof).closes = true) hlength => gives_eat ?_)
    (fun e he later => ⟨rfl, Nat.succ_pos _⟩) (gives_eat_of_ne hcomma (gives_pure rfl)) hcloses hn ?_
  · rw [length_cons] at hlength
    refine gives_check_of_ne (((h e he).begins_spell _).head_ne (by rw [hbegins]; nofun) later) ?_
    exact Gives.pack ((h e he).element hlater (by omega)) fun e' he' => gives_pure ⟨e', rfl, he'⟩
  · rw [rounds_rules]
    omega

theorem gives_tupleTail (h : ∀ e ∈ es, ReadsBack e)
    (hn : (Expr.tupleTail es).length + (ks.length + 1) ≤ n) :
    Gives (commaList ((rules n).rounds + 1) (check Symbol.rightParen) (starredOrNamed (rules n))) (Expr.tupleTail es)
      (.symbol .rightParen :: ks) fun more => more.map Expr.unplaced = es.map Expr.unplaced := by
  cases es with
  | nil =>
    have hlast : Gives (do
        unless ← eat Symbol.comma do return none
        if ← check Symbol.rightParen then return none
        return some (← starredOrNamed (rules n))) [.symbol .comma] (.symbol .rightParen :: ks) fun o => o = none :=
      gives_eat (gives_check rfl (gives_pure rfl))
    refine hlast.pack fun o ho => ?_
    subst ho
    exact gives_pure rfl
  | cons e es => exact gives_moreTokens h (.inl rfl) hn

theorem list {elts : List Expr} (span : Span) (h : ∀ e ∈ elts, ReadsBack e) : ReadsBack (.list span elts) := by
  have honLadder := Expr.OnLadder.list span fun e he => (h e he).onLadder
  refine of_gives honLadder rfl fun n ks _ hn => ?_
  cases elts with
  | nil =>
    refine gives_here fun _ => gives_peek (gives_here fun _ => gives_take (gives_eat ?_))
    exact gives_finish fun _ => gives_pure rfl
  | cons e es =>
    obtain ⟨he, hes⟩ := forall_mem_cons.1 h
    rw [Expr.tokens_list] at hn ⊢
    simp only [length_cons, length_append, length_nil] at hn
    have hnext : ((Expr.moreTokens es ++ [TokenKind.symbol .rightBracket] ++ ks).headD .eof).closes = true := by
      cases es <;> rfl
    refine gives_here fun _ => gives_peek (gives_here fun _ => gives_take ?_)
    refine gives_eat_of_ne (((he.begins_spell _).append _).head_ne (by nofun) ks) ?_
    refine Gives.bind (he.element hnext ?_) fun e' he' => ?_
    · simp only [length_cons, length_append, length_nil]
      omega
    have hmore := gives_moreTokens hes (.inr rfl) (show _ + (ks.length + 1) ≤ n by omega)
    refine gives_no_comprehension hnext ((gives_elements he' hmore).pack fun elts helts => ?_)
    refine gives_finish fun _ => gives_pure ?_
    unfold Same Expr.unplaced
    rw [helts]

theorem tuple {elts : List Expr} (span : Span) (h : ∀ e ∈ elts, ReadsBack e) : ReadsBack (.tuple span elts) := by
  have honLadder := Expr.OnLadder.tuple span fun e he => (h e he).onLadder
  refine of_gives honLadder rfl fun n ks _ hn => ?_
  cases elts with
  | nil =>
    refine gives_here fun _ => gives_peek (gives_here fun _ => gives_take (gives_eat ?_))
    exact gives_finish fun _ => gives_pure rfl
  | cons e es =>
    obtain ⟨he, hes⟩ := forall_mem_cons.1 h
    rw [Expr.tokens_tuple] at hn ⊢
    simp only [length_cons, length_append, length_nil] at hn
    have hnext : (Expr.tupleTail es ++ [TokenKind.symbol .rightParen] ++ ks).headD .eof = .symbol .comma := by
      cases es <;> rfl
    refine gives_here fun _ => gives_peek (gives_here fun _ => gives_take ?_)
    refine gives_eat_of_ne (((he.begins_spell _).append _).head_ne (by nofun) ks) ?_
    refine gives_check_of_ne (((he.begins_spell _).append _).head_ne (by nofun) ks) ?_
    refine Gives.bind (he.element (by rw [hnext]; rfl) ?_) fun e' he' => ?_
    · simp only [length_cons, length_append, length_nil]
      omega
    have hmore := gives_tupleTail hes (show _ + (ks.length + 1) ≤ n by omega)
    refine gives_no_comprehension (by rw [hnext]; rfl) (gives_check hnext ?_)
    refine (gives_elements he' hmore).pack fun elts helts => gives_finish fun _ => gives_pure ?_
    unfold Same Expr.unplaced
    rw [helts]

end ReadsBack

/-- Every expression on the ladder is read back. -/
theorem readsBack_of_onLadder {e : Expr} (h : e.OnLadder) : ReadsBack e := by
  induction h with
  | name | int | float | imaginary =>
    refine .of_gives (by constructor) rfl fun _ _ _ _ => ?_
    exact gives_here fun _ => gives_peek (gives_take (gives_pure rfl))
  | attr span name hvalue ih => exact .attr span name ih
  | subscript span hvalue hindex ihvalue ihindex => exact .subscript span ihvalue ihindex
  | call span hfunc hargs ihfunc ihargs => exact .call span ihfunc ihargs
  | binary span op hleft hright ihleft ihright =>
    by_cases hop : op = .pow
    · subst hop
      exact .pow span ihleft ihright
    · exact .binary span hop ihleft ihright
  | unary span op hoperand ih => exact .unary span op ih
  | @boolean values span op htwo hvalues ih =>
    match values, htwo with
    | v :: w :: vs, _ => exact .boolean span op ih
  | compare span hleft hops hlength hcomparators ihleft ih => exact .compare span hops hlength ihleft ih
  | conditional span htest hbody hor ihtest ihbody ihor => exact .conditional span ihtest ihbody ihor
  | list span helts ih => exact .list span ih
  | tuple span helts ih => exact .tuple span ih
  | await span hvalue ih => exact .await span ih

/-- The rule for expressions reads back every expression on the ladder from its spelling at the end of a line: the
same tree but for its places, from exactly these tokens. -/
theorem expression_reads_spelling {e : Expr} (h : e.OnLadder) {c : Cursor} {ts more : List Token} {newline : Token}
    {n : Nat} (hrest : c.rest = ts ++ newline :: more) (hts : ts.map Token.kind = e.tokens)
    (hnewline : newline.kind = .newline) (hn : c.rest.length < n) :
    ∃ e' c', (rules n).expression c = .ok e' c' ∧ e'.unplaced = e.unplaced ∧
      c'.rest = newline :: more ∧ c'.faults = c.faults := by
  have hkinds : c.kinds = Rung.conditional.spell e ++ .newline :: more.map Token.kind := by
    rw [Cursor.kinds, hrest, List.map_append, hts, List.map_cons, hnewline, Rung.spell_conditional]
  have hlength : (Rung.conditional.spell e).length = ts.length := by rw [Rung.spell_conditional, ← hts, List.length_map]
  have hgives : Gives (rules n).expression (Rung.conditional.spell e) (.newline :: more.map Token.kind) (Same e) := by
    refine (readsBack_of_onLadder h).inside .conditional (fun _ => rfl) (Rung.stops_of_closes rfl _) ?_
    rw [hrest] at hn
    simpa [hlength] using hn
  obtain ⟨e', hrule, he'⟩ := hgives c hkinds
  refine ⟨e', _, hrule, he', ?_, c.faults_past _⟩
  rw [Cursor.rest_past, hlength, hrest, List.drop_left]

/-- `-a ** 2 if not b is (c + d) * e[0] else (f,)` -/
def ladderSample : Expr :=
  let name (id : String) : Expr := .name default id
  let product : Expr := .binary default (.binary default (name "c") .add (name "d")) .mult
    (.subscript default (name "e") (.int default "0"))
  .conditional default (.unary default .not (.compare default (name "b") [.is] [product]))
    (.unary default .neg (.binary default (name "a") .pow (.int default "2"))) (.tuple default [name "f"])

theorem onLadder_ladderSample : ladderSample.OnLadder := by
  refine .conditional _ (.unary _ _ (.compare _ (.name _ _) (by simp) rfl ?_)) ?_ (.tuple _ ?_)
  · exact forall_mem_singleton.2 (.binary _ _ (.binary _ _ (.name _ _) (.name _ _))
      (.subscript _ (.name _ _) (.int _ _)))
  · exact .unary _ _ (.binary _ _ (.name _ _) (.int _ _))
  · exact forall_mem_singleton.2 (.name _ _)

/-- The line of this expression. -/
def ladderLine : Cursor :=
  ⟨ladderSample.tokens.map (fun kind => ⟨kind, default⟩) ++ [⟨.newline, default⟩], default, default, []⟩

theorem expression_reads_spelling_ladderSample :
    ladderSample.tokens = [.symbol .minus, .ident "a", .symbol .doubleStar, .int "2", .keyword .ifKw,
      .keyword .notKw, .ident "b", .keyword .isKw, .symbol .leftParen, .ident "c", .symbol .plus, .ident "d",
      .symbol .rightParen, .symbol .star, .ident "e", .symbol .leftBracket, .int "0", .symbol .rightBracket,
      .keyword .elseKw, .symbol .leftParen, .ident "f", .symbol .comma, .symbol .rightParen] ∧
    ∃ e' c', (rules 25).expression ladderLine = .ok e' c' ∧ e'.unplaced = ladderSample.unplaced ∧
      c'.rest = [⟨.newline, default⟩] ∧ c'.faults = [] :=
  ⟨rfl, expression_reads_spelling onLadder_ladderSample rfl rfl rfl (by decide)⟩

end TypeInfer.Grammar
