/-
Blocks, with what happens after a fault. Going on takes tokens like any other step, and at
least one from the start of the faulty statement (`Cursor.reads_resume`). So each round of a
block takes a token, and the rounds are never used up: `good_blockRules`.
-/
import TypeInfer.Proofs.ReadStatement

namespace TypeInfer.Grammar

open List

section

variable {r : Rules} {inner : BlockRules} {c c' : Cursor} {stop : TokenKind} {ts : List Token}
  {last : Span} (source : Source) (s : Token.LayoutState)

/-! ### Passing over tokens -/

/-- Tokens have been passed over, with the last one that is no layout token kept in mind. -/
def Skips (before after : List Token × Span) : Prop :=
  ∃ us, before.1 = us ++ after.1 ∧ after.2 = lastSpan before.2 us

theorem Skips.refl (place : List Token × Span) : Skips place place := ⟨[], rfl, rfl⟩

theorem Skips.trans {before place after : List Token × Span} (h : Skips before place) (h' : Skips place after) :
    Skips before after := by
  obtain ⟨us, hus, hlast⟩ := h
  obtain ⟨vs, hvs, hlast'⟩ := h'
  exact ⟨us ++ vs, by simp [hus, hvs], by rw [hlast', hlast, lastSpan_append]⟩

theorem skips_layout {t} (h : t.kind.isLayout = true) : Skips (t :: ts, last) (ts, last) :=
  ⟨[t], rfl, by simp [lastSpan, h]⟩

theorem skips_token {t} (h : t.kind.isLayout = false) : Skips (t :: ts, last) (ts, t.span) :=
  ⟨[t], rfl, by simp [lastSpan, h]⟩

theorem skips_skipLine (ts : List Token) (last : Span) : Skips (ts, last) (skipLine ts last) := by
  induction ts generalizing last with
  | nil => exact .refl _
  | cons t ts ih =>
    rw [skipLine]
    cases hkind : t.kind with
    | eof | dedent | indent => exact .refl _
    | newline => exact skips_layout (by rw [hkind]; rfl)
    | _ => exact (skips_token (by rw [hkind]; rfl)).trans (ih t.span)

theorem skips_skipBlock (depth : Nat) (ts : List Token) (last : Span) : Skips (ts, last) (skipBlock depth ts last) := by
  induction ts generalizing depth last with
  | nil => exact .refl _
  | cons t ts ih =>
    rw [skipBlock]
    cases hkind : t.kind with
    | eof => exact .refl _
    | indent => exact (skips_layout (by rw [hkind]; rfl)).trans (ih (depth + 1) last)
    | dedent =>
      have hdedent : Skips (t :: ts, last) (ts, last) := skips_layout (by rw [hkind]; rfl)
      by_cases hdepth : depth - 1 = 0
      · simpa only [if_pos hdepth] using hdedent
      · simpa only [if_neg hdepth] using hdedent.trans (ih (depth - 1) last)
    | newline => exact (skips_layout (by rw [hkind]; rfl)).trans (ih depth last)
    | _ => exact (skips_token (by rw [hkind]; rfl)).trans (ih depth t.span)

theorem Cursor.takes_recover (c : Cursor) : ∃ ts, c.Takes false ts c.recover := by
  have hline := skips_skipLine c.rest c.last
  have hskips : Skips (c.rest, c.last) (c.recover.rest, c.recover.last) := by
    unfold Cursor.recover
    generalize skipLine c.rest c.last = place at hline
    obtain ⟨rest, last⟩ := place
    cases hopens : rest.head?.any (·.kind == .indent) with
    | false => simpa [hopens] using hline
    | true => simpa [hopens] using hline.trans (skips_skipBlock 0 rest last)
  obtain ⟨ts, hrest, hlast⟩ := hskips
  exact ⟨ts, hrest, hlast, rfl, prefix_refl _, fun _ => .inl, by simp⟩

/-- After a fault reading goes on with fewer tokens. -/
theorem Cursor.reads_resume {fault} (h : c.Reads false [] c' ∧ fault.IsFault)
    (hkind : c.kind ≠ .eof) (d : Diagnostic) (hd : d = fault) :
    c.Reads false [] (c.resume c' d) ∧ (c.resume c' d).left < c.left := by
  obtain ⟨⟨ts, hts, -⟩, hfault⟩ := h
  obtain ⟨us, hus⟩ := takes_recover c'
  let after := { c'.recover with faults := c'.faults ++ [d] }
  have hpassed := hts.trans hus
  have hfound : ∀ e ∈ after.faults, e ∈ c.faults ∨ e.IsFault := by
    intro e he
    rcases mem_append.1 he with he | he
    · exact hts.found e he
    · exact .inr (mem_singleton.1 he ▸ hd ▸ hfault)
  have hafter : c.Takes false (ts ++ us) after :=
    { hpassed with faults := hts.faults.trans (prefix_append _ _), found := hfound, plain := by simp }
  have hresume : c.resume c' d = if after.rest.length = c.rest.length then after.advance else after := rfl
  rw [hresume]
  have hleft := hafter.left_eq
  have hreads : c.Reads false [] after := ⟨_, hafter, fun _ => .marks _⟩
  by_cases hsame : after.rest.length = c.rest.length
  · -- nothing has been passed over, so the token at which the statement started is still there
    have hlen : after.left = c.left := hsame
    have hnil : ts ++ us = [] := eq_nil_of_length_eq_zero (by omega)
    have hrest := hafter.rest
    rw [hnil, nil_append] at hrest
    have hsameKind : after.kind = c.kind := by simp [kind, current, hrest, hafter.stop]
    have hmay : mayTake false after.kind = true := bne_iff_ne.2 (hsameKind ▸ hkind)
    have hlt := left_advance hmay
    rw [if_pos hsame]
    exact ⟨hreads.trans (reads_advance hmay), by omega⟩
  · have hlen : after.left ≠ c.left := hsame
    rw [if_neg hsame]
    exact ⟨hreads, by omega⟩

/-! ### Rounds of a block -/

theorem run_tryCatch_ok {α : Type} {x : Rule α} {handler : Failure → Rule α} {a : α} (h : x c = .ok a c') :
    tryCatch x handler c = .ok a c' := by
  show EStateM.tryCatch x handler c = .ok a c'
  delta EStateM.tryCatch
  rw [h]

theorem run_tryCatch_error {α : Type} {x : Rule α} {handler : Failure → Rule α} {e : Failure} (h : x c = .error e c') :
    tryCatch x handler c = handler e c' := by
  show EStateM.tryCatch x handler c = handler e c'
  delta EStateM.tryCatch
  rw [h]
  rfl

theorem run_blockRound (hstop : c.kind ≠ stop) (heof : c.kind ≠ .eof) (hline : c.kind ≠ .newline) :
    (∀ ss c', statement r inner c = .ok ss c' → blockRound r inner stop c = .ok (some ss) c') ∧
    ∀ d c', statement r inner c = .error (.fault d) c' →
      blockRound r inner stop c = .ok (some []) (c.resume c' d) := by
  have hcheck (kind : TokenKind) : check kind c = .ok (c.kind == kind) c := rfl
  rw [blockRound, run_bind_ok (hcheck stop), run_bind_ok (hcheck .eof), if_neg (by simp [hstop, heof]),
    run_bind_ok (run_eat_of_ne hline), if_neg Bool.false_ne_true, run_get_bind]
  constructor
  · intro ss c' h
    refine (run_bind_ok (run_tryCatch_ok (a := Except.error (some ss)) ?_)).trans rfl
    exact (run_bind_ok h).trans rfl
  · intro d c' h
    exact (run_bind_ok (a := Except.error (some [])) (run_tryCatch_error (run_bind_error h))).trans rfl

theorem run_blockRound_end (h : c.kind = stop ∨ c.kind = .eof) : blockRound r inner stop c = .ok none c := by
  have hcheck (kind : TokenKind) : check kind c = .ok (c.kind == kind) c := rfl
  rw [blockRound, run_bind_ok (hcheck stop), run_bind_ok (hcheck .eof), if_pos (by simpa using h)]
  rfl

theorem run_blockRound_newline (hstop : c.kind ≠ stop) (hline : c.kind = .newline) :
    blockRound r inner stop c = .ok (some []) c.advance := by
  have hcheck (kind : TokenKind) : check kind c = .ok (c.kind == kind) c := rfl
  rw [blockRound, run_bind_ok (hcheck stop), run_bind_ok (hcheck .eof), if_neg (by simpa [hline] using hline ▸ hstop),
    run_bind_ok (run_eat hline), if_pos rfl]
  rfl

/-- A round never fails. It takes a token, or it stands at the end of the block. -/
theorem exists_blockRound (hr : r.Good) (hinner : inner.Good) (hrounds : inner.rounds < r.rounds) (stop : TokenKind)
    (hc : c.left < inner.rounds + 1) : ∃ o c', blockRound r inner stop c = .ok o c' ∧
      c.Reads false (o.toList.flatMap Node.ofStmts) c' ∧
        o.elim (c'.kind = stop ∨ c'.kind = .eof) fun _ => c'.left < c.left := by
  by_cases hend : c.kind = stop ∨ c.kind = .eof
  · exact ⟨none, c, run_blockRound_end hend, .refl false c, hend⟩
  obtain ⟨hstop, heof⟩ := not_or.1 hend
  by_cases hline : c.kind = .newline
  · have hmay : Cursor.mayTake false c.kind = true := bne_iff_ne.2 heof
    exact ⟨_, _, run_blockRound_newline hstop hline, Cursor.reads_advance hmay, Cursor.left_advance hmay⟩
  obtain ⟨hok, hfault⟩ := run_blockRound (r := r) hstop heof hline
  rcases (reader_statement hr hinner hrounds c hc).cases with ⟨ss, c', hss, hreads, hlt⟩ | ⟨d, c', hd, hreads⟩
  · exact ⟨_, _, hok ss c' hss, by simpa using hreads, hlt⟩
  · exact ⟨_, _, hfault d c' hd, Cursor.reads_resume hreads heof d rfl⟩

theorem exists_many {α : Type} {rule : Rule (Option α)} {nodes : α → List Node} {P : Cursor → Prop}
    {bound rounds : Nat} (hrule : ∀ c, c.left < bound → ∃ o c', rule c = .ok o c' ∧ c.Reads false (o.toList.flatMap nodes) c' ∧
      o.elim (P c') fun _ => c'.left < c.left) (hbound : c.left < bound) (hrounds : c.left < rounds) :
    ∃ as c', many rule rounds c = .ok as c' ∧ c.Reads false (as.flatMap nodes) c' ∧ P c' := by
  induction rounds generalizing c with
  | zero => exact absurd hrounds (Nat.not_lt_zero _)
  | succ rounds ih =>
    obtain ⟨o, c₁, heq, hreads, ho⟩ := hrule c hbound
    rw [many, run_bind_ok heq]
    cases o with
    | none => exact ⟨[], c₁, rfl, hreads, ho⟩
    | some a =>
      have hlt : c₁.left < c.left := ho
      obtain ⟨as, c₂, heq', hreads', hP⟩ := ih (Nat.lt_trans hlt hbound) (by omega)
      exact ⟨a :: as, c₂, run_bind_ok heq', by simpa using hreads.trans hreads', hP⟩

/-- The statements of a block are read to its end. -/
theorem exists_statements (hr : r.Good) (hinner : inner.Good) (hrounds : inner.rounds < r.rounds) (stop : TokenKind)
    (hc : c.left < inner.rounds + 1) : ∃ ss c', statements r inner stop c = .ok ss c' ∧ c.ReadsBlock stop ss c' := by
  obtain ⟨lines, c', heq, hreads, hend⟩ := exists_many (fun c => exists_blockRound hr hinner hrounds stop) hc hc
  refine ⟨lines.flatten, c', run_bind_ok heq, ?_, hend⟩
  rw [Node.ofStmts, map_flatten]
  rwa [flatMap_def] at hreads

/-! ### The knot -/

theorem rounds_blockRules (r : Rules) (n : Nat) : (blockRules r n).rounds = n := by
  induction n with
  | zero => rfl
  | succ n ih => exact congrArg (· + 1) ih

theorem good_blockRules (hr : r.Good) {n} (hn : n ≤ r.rounds) : (blockRules r n).Good := by
  induction n with
  | zero =>
    constructor
    · exact fun _ c hc => absurd hc (Nat.not_lt_zero _)
    · exact fun c _ hc => absurd hc (Nat.not_lt_zero _)
  | succ n ih =>
    have hinner := ih (by omega)
    have hrounds : (blockRules r n).rounds < r.rounds := by
      rw [rounds_blockRules]
      omega
    refine ⟨fun stop c hc => ?_, fun c hfirst hc => meets_ifStatement hr hinner hrounds hfirst hc⟩
    obtain ⟨ss, c', heq, hss⟩ := exists_statements hr hinner hrounds stop hc
    exact meets_of_ok heq hss

/-! ### Reading ends -/

/-- No token has been put back, and one at least has been taken. -/
def Cursor.MovesOn (c c' : Cursor) : Prop := c'.rest <:+ c.rest ∧ c'.rest.length < c.rest.length

/-- The rule takes a token and gives something, or finds a fault. -/
def EndsAt (rule : Rule α) (c : Cursor) : Prop :=
  (∃ a c', rule c = .ok a c' ∧ c.MovesOn c') ∨ ∃ d c', rule c = .error (.fault d) c' ∧ c'.rest <:+ c.rest

theorem Cursor.Reads.suffix {plain ns} (h : c.Reads plain ns c') : c'.rest <:+ c.rest := by
  obtain ⟨ts, hts, -⟩ := h
  exact ⟨ts, hts.rest.symm⟩

theorem Reader.endsAt {α : Type} {plain : Bool} {nodes : α → List Node} {bound : Nat} {rule : Rule α}
    (hrule : Reader plain nodes bound rule) (hc : c.left < bound) : EndsAt rule c := by
  rcases (hrule c hc).cases with ⟨a, c', heq, hreads, hlt⟩ | ⟨d, c', heq, hreads⟩
  · exact .inl ⟨a, c', heq, hreads.suffix, hlt⟩
  · exact .inr ⟨d, c', heq, hreads.1.suffix⟩

theorem exists_statements_of_rounds (c : Cursor) (spare : Nat) (stop : TokenKind) :
    let r := rules (c.rest.length + spare + 1)
    ∃ ss c', statements r (blockRules r (c.rest.length + spare)) stop c = .ok ss c' ∧ c.ReadsBlock stop ss c' := by
  intro r
  have hr : r.Good := good_rules _
  have hr_rounds : r.rounds = c.rest.length + spare + 1 := rounds_rules _
  have hinner_rounds := rounds_blockRules r (c.rest.length + spare)
  have hc : c.left = c.rest.length := rfl
  exact exists_statements hr (good_blockRules hr (by omega)) (by omega) stop (by omega)

/-- Whatever the tokens are, reading ends, with one more round than there are tokens. Each round of a
block takes a token, also with a fault, or ends the block, and a file is read up to its end. -/
theorem reading_ends (c : Cursor) (spare : Nat) (stop : TokenKind) (source : Source) (tokens : List Token) :
    let r := rules (c.rest.length + spare + 1)
    let inner := blockRules r (c.rest.length + spare)
    (∀ rule ∈ [r.expression, r.orTest, r.notTest, r.bitOr, r.factor], EndsAt rule c) ∧
    EndsAt (statement r inner) c ∧
    (∀ d c', statement r inner c = .error (.fault d) c' → c.kind = .eof ∨ c.MovesOn (c.resume c' d)) ∧
    (∃ o c', blockRound r inner stop c = .ok o c' ∧ c'.rest <:+ c.rest ∧
      o.elim (c'.kind = stop ∨ c'.kind = .eof) fun _ => c.MovesOn c') ∧
    (∃ body c', statements r inner stop c = .ok body c' ∧ c'.rest <:+ c.rest ∧ (c'.kind = stop ∨ c'.kind = .eof)) ∧
    ∃ body c', moduleBody tokens (Cursor.ofTokens source tokens) = .ok body c' ∧ c'.rest <:+ tokens ∧
      c'.kind = .eof := by
  intro r inner
  have hr : r.Good := good_rules _
  have hr_rounds : r.rounds = c.rest.length + spare + 1 := rounds_rules _
  have hinner_rounds : inner.rounds = c.rest.length + spare := rounds_blockRules _ _
  have hinner : inner.Good := good_blockRules hr (by omega)
  have hlt : inner.rounds < r.rounds := by omega
  have hc : c.left < inner.rounds + 1 := by
    show c.rest.length < _
    omega
  have hc_rules : c.left < r.rounds := by omega
  have hstatement := reader_statement hr hinner hlt
  refine ⟨?_, hstatement.endsAt hc, fun d c' hd => ?_, ?_, ?_, ?_⟩
  · simp only [List.forall_mem_cons, List.not_mem_nil, false_imp_iff, implies_true, and_true]
    exact ⟨hr.expression.endsAt hc_rules, hr.orTest.endsAt hc_rules, hr.notTest.endsAt hc_rules,
      hr.bitOr.endsAt hc_rules, hr.factor.endsAt hc_rules⟩
  · by_cases heof : c.kind = .eof
    · exact .inl heof
    rcases (hstatement c hc).cases with ⟨ss, c'', heq, -⟩ | ⟨d', c'', heq, hreads⟩
    · cases hd.symm.trans heq
    · cases hd.symm.trans heq
      obtain ⟨hresume, hless⟩ := Cursor.reads_resume hreads heof d rfl
      exact .inr ⟨hresume.suffix, hless⟩
  · obtain ⟨o, c', heq, hreads, ho⟩ := exists_blockRound hr hinner hlt stop hc
    refine ⟨o, c', heq, hreads.suffix, ?_⟩
    cases o with
    | none => exact ho
    | some ss => exact ⟨hreads.suffix, ho⟩
  · obtain ⟨ss, c', heq, hreads, hend⟩ := exists_statements_of_rounds c spare stop
    exact ⟨ss, c', heq, hreads.suffix, hend⟩
  · obtain ⟨ss, c', heq, hreads, hend⟩ := exists_statements_of_rounds (Cursor.ofTokens source tokens) 0 .eof
    exact ⟨ss, c', heq, hreads.suffix, hend.elim id id⟩

/-! ### The faults of a file -/

theorem isFault_indentTo (span : Span) :
    ∀ d ∈ Token.faultsOf (Token.indentTo source s span).2, d.IsFault := by
  unfold Token.indentTo
  dsimp only
  split
  · simp [Token.faultsOf]
  · split
    · simp [Token.faultsOf]
    · simp [Token.faultsOf, Diagnostic.IsFault, Diagnostic.error]

theorem isFault_layoutStep (lexeme : Token.Lexeme) (text : List Char) :
    ∀ d ∈ Token.faultsOf (Token.layoutStep source s lexeme text).2, d.IsFault := by
  have hfaultOf (span : Span) : (Token.faultOf text span).IsFault := by
    by_cases hquote : text.any Token.isQuote <;> simp [Token.faultOf, hquote, Diagnostic.IsFault, Diagnostic.error]
  cases lexeme with
  | blank => simp [Token.layoutStep, Token.faultsOf]
  | lineEnd => by_cases hends : s.depth = 0 && !s.atLineStart <;> simp [Token.layoutStep, hends, Token.faultsOf]
  | token kind =>
    cases hs : s.atLineStart with
    | false => simp [Token.layoutStep, hs, Token.faultsOf]
    | true => simpa [Token.layoutStep, hs, Token.faultsOf] using isFault_indentTo source s _
  | unterminated => simpa [Token.layoutStep, Token.faultsOf] using hfaultOf _
  | stray => simpa [Token.layoutStep, Token.faultsOf] using hfaultOf _

theorem isFault_layout (ls : List (Token.Lexeme × List Char)) :
    ∀ d ∈ Token.faultsOf (Token.layout source s ls), d.IsFault := by
  induction ls generalizing s with
  | nil => cases hs : s.atLineStart <;> simp [Token.layout, Token.layoutEnd, Token.faultsOf, hs]
  | cons l ls ih =>
    have happend : Token.faultsOf (Token.layout source s (l :: ls)) =
        Token.faultsOf (Token.layoutStep source s l.1 l.2).2 ++
          Token.faultsOf (Token.layout source (Token.layoutStep source s l.1 l.2).1 ls) :=
      filterMap_append
    rw [happend]
    exact forall_mem_append.2 ⟨isFault_layoutStep source s l.1 l.2, ih _⟩

theorem isFault_of_parse {source faults} (h : parse source = .error faults) :
    ∀ d ∈ faults, d.IsFault := by
  cases htokens : Token.tokenize source with
  | error found =>
    rw [parse, htokens] at h
    obtain rfl : found = faults := Except.error.inj h
    by_cases hnone : (Token.faultsOf (Token.layout source {} (Token.lexemes source.text.toList))).isEmpty
    · simp [Token.tokenize, hnone] at htokens
    · simp only [Token.tokenize, hnone] at htokens
      rw [← Except.error.inj htokens]
      exact isFault_layout source {} _
  | ok tokens =>
    have hparse : parseTokens source tokens = .error faults := by
      rw [parse, htokens] at h
      exact h
    obtain ⟨body, c, heq, ⟨ts, hts, -⟩, -⟩ := exists_statements_of_rounds (Cursor.ofTokens source tokens) 0 .eof
    have hbody : moduleBody tokens (Cursor.ofTokens source tokens) = .ok body c := heq
    rw [parseTokens, hbody] at hparse
    by_cases hnone : c.faults.isEmpty
    · simp [hnone] at hparse
    · simp only [hnone] at hparse
      rw [← Except.error.inj hparse]
      exact fun d hd => (hts.found d hd).elim nofun id

/-! ### The tree of a file -/

/-- The tree of a file has been read from its tokens. -/
theorem derives_of_parse {source m} (h : parse source = .ok m) :
    ∃ tokens ts rest, Token.tokenize source = .ok tokens ∧ tokens = ts ++ rest ∧ Derives ts (Node.ofStmts m.body) ∧
      m.span = source.span 0 source.length := by
  cases htokens : Token.tokenize source with
  | error faults =>
    rw [parse, htokens] at h
    cases h
  | ok tokens =>
    have hparse : parseTokens source tokens = .ok m := by
      rw [parse, htokens] at h
      exact h
    obtain ⟨body, c, heq, ⟨ts, hts, hderives⟩, -⟩ := exists_statements_of_rounds (Cursor.ofTokens source tokens) 0 .eof
    have hbody : moduleBody tokens (Cursor.ofTokens source tokens) = .ok body c := heq
    rw [parseTokens, hbody] at hparse
    cases hfaults : c.faults with
    | nil =>
      simp only [hfaults, isEmpty_nil, if_true] at hparse
      obtain rfl := Except.ok.inj hparse
      exact ⟨tokens, ts, c.rest, rfl, hts.rest, hderives hfaults, rfl⟩
    | cons d ds =>
      simp only [hfaults, isEmpty_cons, Bool.false_eq_true, if_false] at hparse
      cases hparse

end

end TypeInfer.Grammar
