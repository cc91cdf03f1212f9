/-
Faults stay in the blocks where they are found. Going on after a fault passes over the rest of a
line and the block that hangs off it (`Cursor.PassesLine`), so every round of a block nests
(`Cursor.Rounds`). `watchedBody` gives up where one does not, and reads every file as the parser
does.
-/
import TypeInfer.Proofs.BlockStructure

namespace TypeInfer

open List

namespace Token

theorem LogicalLine.ne_eof (line : LogicalLine) {t} (h : t ∈ line.tokens) : t.kind ≠ .eof := by
  intro ht
  rcases mem_append.1 h with h | h
  · rcases mem_append.1 h with h | h
    · rcases line.margin_kind with ⟨u, hu, hkind⟩ | hall
      · rw [hu, mem_singleton] at h
        cases (h ▸ hkind).symm.trans ht
      · cases (hall t h).symm.trans ht
    · have hlayout := line.words_kind t h
      rw [ht] at hlayout
      cases hlayout
  · rw [mem_singleton] at h
    cases (h ▸ line.newline_kind).symm.trans ht

/-- Of the tokens of a text only the last is its end. -/
theorem IsLines.ends {ts : List Token} (h : IsLines ts) : ∀ t ∈ ts.dropLast, t.kind ≠ .eof := by
  obtain ⟨lines, dedents, eof, rfl, hdedents, -⟩ := h
  intro t ht hkind
  rw [dropLast_concat] at ht
  rcases mem_append.1 ht with ht | ht
  · obtain ⟨line, -, ht⟩ := mem_flatMap.1 ht
    exact line.ne_eof ht hkind
  · cases (hdedents t ht).symm.trans hkind

theorem Closes.exists_suffix {ts us : List Token} {depth : Nat} (h : Closes depth (ts ++ us)) :
    ∃ left, Closes left us := by
  induction ts generalizing depth with
  | nil => exact ⟨depth, h⟩
  | cons t ts ih =>
    rw [cons_append] at h
    rcases t.margin_cases with ht | ht | ht
    · exact ih ((closes_cons_indent ht).1 h)
    · exact ih ((closes_cons_dedent ht).1 h).2
    · exact ih ((closes_cons_plain ht).1 h)

end Token

namespace Grammar

open Token (Closes)

section

variable {r : Rules} {inner watched : BlockRules} {c c' : Cursor} {depth : Nat} {stop : TokenKind}

/-! ### Going on after a fault -/

/-- Between the places stand the rest of a line and, if one hangs off it, a block. -/
def Cursor.PassesLine (c c' : Cursor) : Prop :=
  ∃ line block, c.rest = line ++ block ++ c'.rest ∧ (∀ t ∈ line, t.kind.isMargin = false ∧ t.kind ≠ .eof) ∧
    (∀ t ∈ line.dropLast, t.kind ≠ .newline) ∧
    (block = [] ∨ ∃ first inside last, block = first :: (inside ++ [last]) ∧ first.kind = .indent ∧
      Token.Balanced inside ∧ last.kind = .dedent)

theorem Cursor.PassesLine.nests (h : c.PassesLine c') : c.Nests c' := by
  obtain ⟨line, block, hrest, hline, -, hblock⟩ := h
  have hcloses : Closes 0 line := Token.closes_of_plain fun t ht => (hline t ht).1
  have hcloses' : Closes 0 block := by
    rcases hblock with rfl | ⟨first, inside, last, rfl, hfirst, hinside, hlast⟩
    · rfl
    · exact hinside.closes.block hfirst hlast
  exact nests_of_closes (line ++ block) hrest (hcloses.append hcloses')

theorem exists_skipLine (ts : List Token) (last : Span) : ∃ line, ts = line ++ (skipLine ts last).1 ∧
    (∀ t ∈ line, t.kind.isMargin = false ∧ t.kind ≠ .eof) ∧ (∀ t ∈ line.dropLast, t.kind ≠ .newline) ∧
    (line = [] → ts = [] ∨ ∃ t more, ts = t :: more ∧ (t.kind.isMargin = true ∨ t.kind = .eof)) := by
  induction ts generalizing last with
  | nil => exact ⟨[], rfl, by simp, by simp, fun _ => .inl rfl⟩
  | cons t ts ih =>
    rw [skipLine]
    cases hkind : t.kind with
    | eof => exact ⟨[], rfl, by simp, by simp, fun _ => .inr ⟨t, ts, rfl, .inr hkind⟩⟩
    | dedent | indent => exact ⟨[], rfl, by simp, by simp, fun _ => .inr ⟨t, ts, rfl, .inl (by rw [hkind]; rfl)⟩⟩
    | newline => exact ⟨[t], rfl, by simp [hkind, TokenKind.isMargin], by simp, by simp⟩
    | _ =>
      obtain ⟨line, hline, hplain, hlast, -⟩ := ih t.span
      refine ⟨t :: line, congrArg (t :: ·) hline, ?_, ?_, by simp⟩
      · exact forall_mem_cons.2 ⟨by simp [hkind, TokenKind.isMargin], hplain⟩
      · cases line with
        | nil => simp
        | cons u line => exact forall_mem_cons.2 ⟨by simp [hkind], hlast⟩

theorem exists_skipBlock {ts depth more} (last : Span) (hcloses : Closes (depth + 1 + more) ts)
    (hends : ∀ t ∈ ts.dropLast, t.kind ≠ .eof) :
    ∃ inside t, ts = inside ++ t :: (skipBlock (depth + 1) ts last).1 ∧
      t.kind = .dedent ∧ Closes depth inside := by
  induction ts generalizing depth last with
  | nil =>
    have hzero : depth + 1 + more = 0 := hcloses
    omega
  | cons t ts ih =>
    have hends' : ∀ u ∈ ts.dropLast, u.kind ≠ .eof := by
      cases ts with
      | nil => simp
      | cons v vs => exact fun u hu => hends u (mem_cons_of_mem t hu)
    rw [skipBlock]
    cases hkind : t.kind with
    | eof =>
      have hplain : t.kind.isMargin = false := by rw [hkind]; rfl
      rw [Token.closes_cons_plain hplain] at hcloses
      cases ts with
      | nil =>
        have hzero : depth + 1 + more = 0 := hcloses
        omega
      | cons v vs => exact absurd hkind (hends t (by simp))
    | indent =>
      rw [Token.closes_cons_indent hkind] at hcloses
      rw [show depth + 1 + more + 1 = depth + 1 + 1 + more by omega] at hcloses
      obtain ⟨inside, u, hts, hu, hinside⟩ := ih last hcloses hends'
      exact ⟨t :: inside, u, congrArg (t :: ·) hts, hu, (Token.closes_cons_indent hkind).2 hinside⟩
    | dedent =>
      rw [Token.closes_cons_dedent hkind] at hcloses
      cases depth with
      | zero => exact ⟨[], t, rfl, hkind, rfl⟩
      | succ depth =>
        have hrest : Closes (depth + 1 + more) ts := by
          have h := hcloses.2
          rwa [show depth + 1 + 1 + more - 1 = depth + 1 + more by omega] at h
        obtain ⟨inside, u, hts, hu, hinside⟩ := ih last hrest hends'
        exact ⟨t :: inside, u, congrArg (t :: ·) hts, hu, (Token.closes_cons_dedent hkind).2 ⟨Nat.succ_pos _, hinside⟩⟩
    | _ =>
      have hplain : t.kind.isMargin = false := by rw [hkind]; rfl
      rw [Token.closes_cons_plain hplain] at hcloses
      obtain ⟨inside, u, hts, hu, hinside⟩ := ih _ hcloses hends'
      exact ⟨t :: inside, u, congrArg (t :: ·) hts, hu, (Token.closes_cons_plain hplain).2 hinside⟩

theorem rest_recover (c : Cursor) {rest last} (h : skipLine c.rest c.last = (rest, last)) :
    c.recover.rest = if rest.head?.any (·.kind == .indent) then (skipBlock 0 rest last).1 else rest := by
  simp only [Cursor.recover, h]
  split <;> rfl

/-- Going on passes the rest of the line and its block, by a token unless all ends here. -/
theorem passesLine_recover {bound : Nat} (hc : c.InBlock bound depth) :
    c.PassesLine c.recover ∧ (c.kind ≠ .dedent → c.kind ≠ .eof → c.recover.left < c.left) := by
  obtain ⟨line, hrest, hline, hlast, hnone⟩ := exists_skipLine c.rest c.last
  cases hplace : skipLine c.rest c.last with
  | mk rest last =>
    have hrecover := rest_recover c hplace
    rw [hplace] at hrest
    dsimp only at hrest
    have hnests : c.Nests { c with rest, last } :=
      Cursor.nests_of_closes line hrest (Token.closes_of_plain fun t ht => (hline t ht).1)
    obtain ⟨hcloses, hends, -⟩ := hc.next hnests
    cases hopens : rest.head?.any (·.kind == .indent) with
    | false =>
      rw [hopens] at hrecover
      have hall : c.rest = line ++ c.recover.rest := hrest.trans (congrArg (line ++ ·) hrecover.symm)
      refine ⟨⟨line, [], by rwa [append_nil], hline, hlast, .inl rfl⟩, fun hdedent heof => ?_⟩
      have hlength := congrArg List.length hall
      cases line with
      | nil =>
        -- nothing is passed over only where a block or the file ends
        rcases hnone rfl with hnil | ⟨t, more, hcons, hstop⟩
        · exact absurd (by simp [Cursor.kind, Cursor.current, hnil]) heof
        · have hkind : c.kind = t.kind := by simp [Cursor.kind, Cursor.current, hcons]
          rw [nil_append, hcons] at hrest
          rw [hkind] at hdedent heof
          rcases t.margin_cases with ht | ht | ht
          · rw [← hrest] at hopens
            simp [ht] at hopens
          · exact absurd ht hdedent
          · exact absurd (hstop.resolve_left (by simp [ht])) heof
      | cons t line =>
        simp only [cons_append, length_cons, length_append] at hlength
        show c.recover.rest.length < c.rest.length
        omega
    | true =>
      rw [hopens] at hrecover
      cases rest with
      | nil => cases hopens
      | cons t ts =>
        have ht : t.kind = .indent := by simpa using hopens
        have hinto : skipBlock 0 (t :: ts) last = skipBlock 1 ts last := by rw [skipBlock, ht]
        have hcloses' : Closes (0 + 1 + depth) ts := by
          rw [Nat.zero_add, Nat.add_comm]
          exact (Token.closes_cons_indent ht).1 hcloses
        have hends' : ∀ u ∈ ts.dropLast, u.kind ≠ .eof := by
          cases ts with
          | nil => simp
          | cons v vs => exact fun u hu => hends u (mem_cons_of_mem t hu)
        obtain ⟨inside, u, hts, hu, hinside⟩ := exists_skipBlock last hcloses' hends'
        have hplace' : c.recover.rest = (skipBlock 1 ts last).1 := hrecover.trans (congrArg Prod.fst hinto)
        have hts' : ts = inside ++ [u] ++ c.recover.rest := by
          rw [hplace', append_assoc]
          exact hts
        have hall : c.rest = line ++ (t :: (inside ++ [u])) ++ c.recover.rest := by
          calc c.rest = line ++ (t :: ts) := hrest
            _ = line ++ (t :: (inside ++ [u] ++ c.recover.rest)) := congrArg (fun ts => line ++ (t :: ts)) hts'
            _ = line ++ (t :: (inside ++ [u])) ++ c.recover.rest := by simp
        refine ⟨⟨line, _, hall, hline, hlast, .inr ⟨t, inside, u, rfl, ht, hinside.balanced, hu⟩⟩, fun _ _ => ?_⟩
        have hlength := congrArg List.length hall
        simp only [length_append, length_cons] at hlength
        show c.recover.rest.length < c.rest.length
        omega

theorem Cursor.Nests.kind_eq (h : c.Nests c') (hleft : c'.left = c.left) (heof : c.kind ≠ .eof) : c'.kind = c.kind := by
  obtain ⟨ts, hts, -⟩ := h
  have hlength : c.left = ts.length + c'.left := (congrArg List.length hts).trans length_append
  obtain rfl : ts = [] := eq_nil_of_length_eq_zero (by omega)
  obtain ⟨t, ht, hrest⟩ := exists_rest_of_kind rfl heof
  rw [nil_append] at hts
  simp [kind, current, ← hts, hrest]

/-- After a fault reading goes on in the same block. -/
theorem Cursor.nests_resume {bound} (hc : c.InBlock bound depth) (hnests : c.Nests c')
    (hdedent : c.kind ≠ .dedent) (heof : c.kind ≠ .eof) (d : Diagnostic) :
    c.Nests (c.resume c' d) := by
  obtain ⟨hpasses, htakes⟩ := passesLine_recover (hc.next hnests)
  have hle := hpasses.nests.left_le
  have hle' := hnests.left_le
  have hless : c'.recover.left < c.left := by
    by_cases hsame : c'.left = c.left
    · -- nothing was taken before the fault, so the token is the one the statement starts with
      have hkind := hnests.kind_eq hsame heof
      have hlt := htakes (hkind ▸ hdedent) (hkind ▸ heof)
      omega
    · omega
  have hresume : c.resume c' d = { c'.recover with faults := c'.faults ++ [d] } := if_neg (Nat.ne_of_lt hless)
  rw [hresume]
  exact hnests.trans hpasses.nests

/-! ### Rounds of a block -/

/-- The statements end where the blocks around them do, or with the file. -/
def EndsBlock (stop : TokenKind) (depth : Nat) : Prop := stop = .dedent ∧ 0 < depth ∨ stop = .eof ∧ depth = 0

/-- A round of a block closes just the blocks that it opens, and stands at the end where there is no more to
read. -/
structure Cursor.Rounds (stop : TokenKind) (c : Cursor) (found : Option (List Stmt)) (c' : Cursor) : Prop where
  nests : c.Nests c'
  within : c.kind = .dedent → stop = .dedent
  ends : found = none → c'.kind = stop

theorem run_blockRound_exhausted (hstop : c.kind ≠ stop) (heof : c.kind ≠ .eof) (hline : c.kind ≠ .newline)
    (h : statement r inner c = .error .exhausted c') : blockRound r inner stop c = .error .exhausted c' := by
  have hcheck (kind : TokenKind) : check kind c = .ok (c.kind == kind) c := rfl
  rw [blockRound, run_bind_ok (hcheck stop), run_bind_ok (hcheck .eof), if_neg (by simp [hstop, heof]),
    run_bind_ok (run_eat_of_ne hline), if_neg Bool.false_ne_true, run_get_bind]
  exact run_bind_error ((run_tryCatch_error (run_bind_error h)).trans rfl)

theorem Cursor.InBlock.kind_ne_of_stop {bound} (hc : c.InBlock bound depth)
    (hends : EndsBlock stop depth) (hstop : c.kind ≠ stop) : c.kind ≠ .dedent ∧ c.kind ≠ .eof := by
  rcases hends with ⟨rfl, hpos⟩ | ⟨rfl, rfl⟩
  · obtain ⟨depth, rfl⟩ := Nat.exists_eq_add_of_lt hpos
    exact ⟨hstop, hc.kind_ne_eof⟩
  · exact ⟨hc.kind_ne_dedent, hstop⟩

section

variable (hr : r.Good) (hinner : inner.Agree r.rounds watched)
include hr hinner

theorem blockRound_cases (hc : c.InBlock r.rounds depth) (hends : EndsBlock stop depth) :
    (∃ found c', blockRound r inner stop c = .ok found c' ∧ blockRound r watched stop c = .ok found c' ∧
      c.Rounds stop found c') ∨
    ∃ c', blockRound r inner stop c = .error .exhausted c' ∧ blockRound r watched stop c = .error .exhausted c' := by
  by_cases hstop : c.kind = stop
  · have hend {inner : BlockRules} : blockRound r inner stop c = .ok none c := run_blockRound_end (.inl hstop)
    exact .inl ⟨none, c, hend, hend, .refl c, fun hdedent => hstop.symm.trans hdedent, fun _ => hstop⟩
  obtain ⟨hdedent, heof⟩ := hc.kind_ne_of_stop hends hstop
  by_cases hline : c.kind = .newline
  · have hplain : c.kind.isMargin = false := by rw [hline]; rfl
    have hnewline {inner : BlockRules} : blockRound r inner stop c = .ok (some []) c.advance :=
      run_blockRound_newline hstop hline
    exact .inl ⟨some [], c.advance, hnewline, hnewline, Cursor.nests_advance hplain, fun h => absurd h hdedent, nofun⟩
  have hkeeps := keeps_statement hr hinner hc
  cases hrun : statement r inner c with
  | ok ss c' =>
    have hrun' := hkeeps.same.trans hrun
    have hround := (run_blockRound hstop heof hline).1 ss c' hrun
    have hround' := (run_blockRound hstop heof hline).1 ss c' hrun'
    exact .inl ⟨some ss, c', hround, hround', hkeeps.ok ss c' hrun, fun h => absurd h hdedent, nofun⟩
  | error e c' =>
    have hrun' := hkeeps.same.trans hrun
    cases e with
    | exhausted =>
      exact .inr ⟨c', run_blockRound_exhausted hstop heof hline hrun, run_blockRound_exhausted hstop heof hline hrun'⟩
    | fault d =>
      have hnests := Cursor.nests_resume hc (hkeeps.fault d c' hrun) hdedent heof d
      have hround := (run_blockRound hstop heof hline).2 d c' hrun
      have hround' := (run_blockRound hstop heof hline).2 d c' hrun'
      exact .inl ⟨some [], c.resume c' d, hround, hround', hnests, fun h => absurd h hdedent, nofun⟩

end

/-! ### A parser that watches its blocks -/

open Classical in
/-- A round of a block that is given up unless it does what a round should do. -/
noncomputable def watchedRound (r : Rules) (inner : BlockRules) (stop : TokenKind) : Rule (Option (List Stmt)) := do
  let before ← get
  let found ← blockRound r inner stop
  let after ← get
  if before.Rounds stop found after then return found else exhausted

/-- The rules for blocks, with each round of each block watched. -/
noncomputable def watchedRules (r : Rules) : Nat → BlockRules
  | 0 => ⟨0, fun _ => exhausted, exhausted⟩
  | n + 1 =>
    { rounds := n + 1
      statements := fun stop => return (← many (watchedRound r (watchedRules r n) stop) (n + 1)).flatten
      ifStatement := ifStatement r (watchedRules r n) }

/-- The statements of a file, with each round of each block watched. -/
noncomputable def watchedBody (tokens : List Token) : Rule (List Stmt) :=
  (watchedRules (rules (tokens.length + 1)) (tokens.length + 1)).statements .eof

theorem run_watchedRound_ok {found : Option (List Stmt)} (h : blockRound r inner stop c = .ok found c')
    (hrounds : c.Rounds stop found c') : watchedRound r inner stop c = .ok found c' := by
  rw [watchedRound, run_get_bind, run_bind_ok h, run_get_bind, if_pos hrounds]
  rfl

theorem run_watchedRound_error {e : Failure} (h : blockRound r inner stop c = .error e c') :
    watchedRound r inner stop c = .error e c' := by
  rw [watchedRound, run_get_bind, run_bind_error h]

theorem Loops.bind_ok {α β : Type} {x y : Rule α} {f g : α → Rule β} {a : α} (hx : x c = .ok a c') (hy : y c = .ok a c')
    (hnests : c.Nests c') (h : Loops stop (f a) (g a) c') : Loops stop (x >>= f) (y >>= g) c := by
  have hrun := run_bind_ok (f := f) hx
  have hrun' := run_bind_ok (f := g) hy
  refine ⟨by rw [hrun, hrun', h.same], fun b c'' hb => ?_, fun d c'' hd => h.sound d c'' (hrun.symm.trans hd)⟩
  obtain ⟨hnests', hstop⟩ := h.ends b c'' (hrun.symm.trans hb)
  exact ⟨hnests.trans hnests', hstop⟩

theorem Loops.bind_exhausted {α β : Type} {x y : Rule α} {f g : α → Rule β} (hx : x c = .error .exhausted c')
    (hy : y c = .error .exhausted c') : Loops stop (x >>= f) (y >>= g) c := by
  have hrun := run_bind_error (f := f) hx
  have hrun' := run_bind_error (f := g) hy
  refine ⟨hrun'.trans hrun.symm, fun b c'' hb => ?_, fun d c'' hd => ?_⟩
  · cases hrun.symm.trans hb
  · cases hrun.symm.trans hd

theorem loops_pure {α : Type} (a : α) (h : c.kind = stop) : Loops stop (pure a) (pure a) c := by
  refine ⟨rfl, fun b c' hb => ?_, nofun⟩
  cases hb
  exact ⟨.refl c, h⟩

theorem Loops.map {α β : Type} {x y : Rule α} (h : Loops stop x y c) (f : α → β) :
    Loops stop (x >>= fun a => pure (f a)) (y >>= fun a => pure (f a)) c := by
  cases hx : x c with
  | ok a c' =>
    obtain ⟨hnests, hstop⟩ := h.ends a c' hx
    exact .bind_ok hx (h.same.trans hx) hnests (loops_pure _ hstop)
  | error e c' =>
    cases e with
    | fault d => exact absurd hx (h.sound d c')
    | exhausted => exact .bind_exhausted hx (h.same.trans hx)

/-- The rounds of a block come to its end. -/
theorem loops_rounds (hr : r.Good) (hinner : inner.Agree r.rounds watched) (rounds : Nat)
    (hc : c.InBlock r.rounds depth) (hends : EndsBlock stop depth) :
    Loops stop (many (blockRound r inner stop) rounds) (many (watchedRound r watched stop) rounds) c := by
  induction rounds generalizing c with
  | zero => exact ⟨rfl, nofun, nofun⟩
  | succ rounds ih =>
    rcases blockRound_cases hr hinner hc hends with ⟨found, c₁, hrun, hrun', hrounds⟩ | ⟨c₁, hrun, hrun'⟩
    · refine .bind_ok hrun (run_watchedRound_ok hrun' hrounds) hrounds.nests ?_
      cases found with
      | none => exact loops_pure [] (hrounds.ends rfl)
      | some ss => exact (ih (hc.next hrounds.nests)).map (ss :: ·)
    · exact .bind_exhausted hrun (run_watchedRound_error hrun')

theorem loops_statements {stop : TokenKind} (hr : r.Good) {n : Nat} (hagree : (blockRules r n).Agree r.rounds (watchedRules r n))
    (hc : c.InBlock r.rounds depth) (hends : EndsBlock stop depth) :
    Loops stop ((blockRules r (n + 1)).statements stop) ((watchedRules r (n + 1)).statements stop) c := by
  show Loops stop (statements r (blockRules r n) stop) _ c
  rw [statements, rounds_blockRules]
  exact (loops_rounds hr hagree (n + 1) hc hends).map List.flatten

/-- Watching the blocks changes nothing. -/
theorem agree_watchedRules (hr : r.Good) (n : Nat) : (blockRules r n).Agree r.rounds (watchedRules r n) := by
  induction n with
  | zero => exact ⟨rfl, fun _ => ⟨rfl, nofun, nofun⟩, fun {_ c} _ _ => keeps_of_exhausted c rfl rfl⟩
  | succ n ih =>
    refine ⟨?_, fun {depth c} hc => ?_, fun hc hfirst => keeps_ifStatement hr ih hc hfirst⟩
    · exact (rounds_blockRules r (n + 1)).symm
    · exact loops_statements hr ih hc (.inl ⟨rfl, Nat.succ_pos depth⟩)

end

/-! ### The blocks of a file -/

theorem inBlock_of_suffix {source : Source} {tokens : List Token} {c : Cursor} {depth : Nat}
    (h : Token.tokenize source = .ok tokens) (hsuffix : c.rest <:+ tokens) (hcloses : Closes depth c.rest) :
    c.InBlock (tokens.length + 1) depth := by
  have hends := (Token.tokens_form_lines h).1.ends
  have hle := hsuffix.length_le
  refine ⟨hcloses, fun t ht => hends t ?_, Nat.lt_succ_of_le hle⟩
  obtain ⟨before, rfl⟩ := hsuffix
  cases hrest : c.rest with
  | nil => simp [hrest] at ht
  | cons u us =>
    rw [dropLast_append_of_ne_nil (by simp), ← hrest]
    exact mem_append_right before ht

/-- At every place, in however many blocks it is, a round of the statements there closes just the blocks
that it opens, also with a fault; a block ends where what was opened before it is closed; and going
on after a fault passes over the rest of a line and the block that hangs off it. So a file is read the
same when all rounds of all its blocks are watched. -/
theorem reading_keeps_to_blocks {source : Source} {tokens : List Token} (h : Token.tokenize source = .ok tokens) :
    let r := rules (tokens.length + 1)
    (∀ (c c' : Cursor) depth stop n found, c.rest <:+ tokens → Closes depth c.rest → EndsBlock stop depth →
      blockRound r (blockRules r n) stop c = .ok found c' → c.Rounds stop found c') ∧
    (∀ (c c' : Cursor) depth n body, c.rest <:+ tokens → Closes depth c.rest → c.kind = .indent →
      (blockRules r n).statements .dedent c.advance = .ok body c' → c.advance.Nests c' ∧ c'.kind = .dedent) ∧
    (∀ c : Cursor, c.rest <:+ tokens → c.PassesLine c.recover) ∧
    ∃ body c', moduleBody tokens (.ofTokens source tokens) = .ok body c' ∧
      watchedBody tokens (.ofTokens source tokens) = .ok body c' ∧ c'.kind = .eof := by
  intro r
  have hr : r.Good := good_rules _
  have hr_rounds : r.rounds = tokens.length + 1 := rounds_rules _
  have hbalanced := (Token.tokens_form_lines h).2.1
  refine ⟨fun c c' depth stop n found hsuffix hcloses hends hrun => ?_,
    fun c c' depth n body hsuffix hcloses hindent hrun => ?_, fun c hsuffix => ?_, ?_⟩
  · have hc : c.InBlock r.rounds depth := hr_rounds ▸ inBlock_of_suffix h hsuffix hcloses
    rcases blockRound_cases hr (agree_watchedRules hr n) hc hends with ⟨found', c₁, hrun', -, hrounds⟩ | ⟨c₁, hrun', -⟩
    · cases hrun.symm.trans hrun'
      exact hrounds
    · cases hrun.symm.trans hrun'
  · have hc : c.InBlock r.rounds depth := hr_rounds ▸ inBlock_of_suffix h hsuffix hcloses
    exact ((agree_watchedRules hr n).statements (hc.enter hindent)).ends body c' hrun
  · obtain ⟨before, hbefore⟩ := hsuffix
    obtain ⟨depth, hdepth⟩ := Token.Closes.exists_suffix (hbefore ▸ hbalanced.closes)
    exact (passesLine_recover (inBlock_of_suffix h ⟨before, hbefore⟩ hdepth)).1
  · have hc : (Cursor.ofTokens source tokens).InBlock r.rounds 0 :=
      hr_rounds ▸ inBlock_of_suffix h (List.suffix_refl tokens) hbalanced.closes
    have hloops := loops_statements hr (agree_watchedRules hr tokens.length) hc (.inr ⟨rfl, rfl⟩)
    obtain ⟨body, c', heq, -⟩ := exists_statements_of_rounds (Cursor.ofTokens source tokens) 0 .eof
    have hbody : moduleBody tokens (.ofTokens source tokens) = .ok body c' := heq
    exact ⟨body, c', hbody, hloops.same.trans hbody, (hloops.ends body c' hbody).2⟩

/-- What is told of the faults of a text, and where they are found. -/
def faultsAt (source : Source) : List (String × Nat) :=
  match parse source with
  | .ok _ => []
  | .error faults => faults.map fun d => (d.message, d.span.start)

/-- Faults in two blocks inside of a third one, with a block that hangs off the first. -/
def faultyBlocks : Source :=
  .ofText ⟨"m.py"⟩ "while x:\n    if y:\n        )\n            a\n    else:\n        b c\n    z\nw\n"

/-- Both faults are found, each in its own block. -/
theorem reading_keeps_to_blocks_faultyBlocks :
    faultsAt faultyBlocks = [("Expected expression, found RParen", 27), ("Expected end of line, found identifier 'c'", 63)] ∧
    ∃ tokens, Token.tokenize faultyBlocks = .ok tokens ∧ tokens.countP (·.kind = .indent) = 4 ∧
      (∀ c : Cursor, c.rest <:+ tokens → c.PassesLine c.recover) ∧
      ∃ body c', moduleBody tokens (.ofTokens faultyBlocks tokens) = .ok body c' ∧
        watchedBody tokens (.ofTokens faultyBlocks tokens) = .ok body c' ∧ c'.kind = .eof := by
  have ⟨hfaults, hcount⟩ :
      faultsAt faultyBlocks = [("Expected expression, found RParen", 27), ("Expected end of line, found identifier 'c'", 63)] ∧
      (Token.tokenize faultyBlocks).toOption.map (fun ts => ts.countP (·.kind = .indent)) = some 4 := by
    decide +kernel
  refine ⟨hfaults, ?_⟩
  cases htokens : Token.tokenize faultyBlocks with
  | error faults =>
    rw [htokens] at hcount
    cases hcount
  | ok tokens =>
    rw [htokens] at hcount
    obtain ⟨-, -, hrecover, hwatched⟩ := reading_keeps_to_blocks htokens
    exact ⟨tokens, rfl, Option.some.inj hcount, hrecover, hwatched⟩

/-- A `try` with a fault in its `finally`, and a statement after it that has a fault too. -/
def faultyFinally : Source := .ofText ⟨"m.py"⟩ "try:\n    a\nfinally:\n    )\nif x:\n    )\n"

/-- The same with a handler. -/
def faultyHandler : Source := .ofText ⟨"m.py"⟩ "try:\n    a\nexcept e:\n    )\nif x:\n    )\n"

/-- A `finally` of which no statement can be read counts as missing. So a fault in it makes the next
statement faulty, and the fault in the block of that one is not found; after a handler it is. -/
theorem fault_in_finally_hides_next_statement :
    faultsAt faultyFinally = [("Expected expression, found RParen", 24), ("Expected 'except' or 'finally', found If", 26)] ∧
    faultsAt faultyHandler = [("Expected expression, found RParen", 25), ("Expected expression, found RParen", 37)] := by
  decide +kernel

end Grammar

end TypeInfer
