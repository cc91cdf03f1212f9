/-
Reading keeps to the blocks of a text, whatever faults there are. `Keeps` follows two rules at
once, of which the second watches its blocks: both do the same, and wherever they get, as many
blocks have been closed as were opened (`Cursor.Nests`).
-/
import TypeInfer.Proofs.ReadBlock
import TypeInfer.Proofs.TokenLines

namespace TypeInfer

open List

/-! ### Balanced stretches -/

/-- Whether the token opens or closes a block. -/
def TokenKind.isMargin : TokenKind → Bool
  | .indent | .dedent => true
  | _ => false

theorem TokenKind.isMargin_of_not_isLayout {kind : TokenKind} (h : kind.isLayout = false) : kind.isMargin = false := by
  cases kind <;> first | rfl | cases h

namespace Token

variable {t : Token} {ts us : List Token} {depth more : Nat}

theorem closes_cons_indent (ht : t.kind = .indent) : Closes depth (t :: ts) ↔ Closes (depth + 1) ts := by
  rw [Closes, if_pos ht]

theorem closes_cons_dedent (ht : t.kind = .dedent) : Closes depth (t :: ts) ↔ 0 < depth ∧ Closes (depth - 1) ts := by
  rw [Closes, if_neg (by simp [ht]), if_pos ht]

theorem closes_cons_plain (ht : t.kind.isMargin = false) : Closes depth (t :: ts) ↔ Closes depth ts := by
  have hindent : t.kind ≠ .indent := fun h => by simp [h, TokenKind.isMargin] at ht
  have hdedent : t.kind ≠ .dedent := fun h => by simp [h, TokenKind.isMargin] at ht
  rw [Closes, if_neg hindent, if_neg hdedent]

/-- A token opens a block, closes one, or neither. -/
theorem margin_cases (t : Token) : t.kind = .indent ∨ t.kind = .dedent ∨ t.kind.isMargin = false := by
  cases t.kind with
  | indent => exact .inl rfl
  | dedent => exact .inr (.inl rfl)
  | _ => exact .inr (.inr rfl)

theorem Closes.append (h : Closes depth ts) (h' : Closes more us) : Closes (depth + more) (ts ++ us) := by
  induction ts generalizing depth with
  | nil =>
    obtain rfl : depth = 0 := h
    rwa [Nat.zero_add]
  | cons t ts ih =>
    rw [cons_append]
    rcases t.margin_cases with ht | ht | ht
    · rw [closes_cons_indent ht] at h ⊢
      rw [Nat.add_right_comm]
      exact ih h
    · rw [closes_cons_dedent ht] at h ⊢
      refine ⟨by omega, ?_⟩
      rw [show depth + more - 1 = depth - 1 + more by omega]
      exact ih h.2
    · rw [closes_cons_plain ht] at h ⊢
      exact ih h

theorem Closes.cancel (h : Closes (depth + more) (ts ++ us)) (hts : Closes depth ts) : Closes more us := by
  induction ts generalizing depth with
  | nil =>
    obtain rfl : depth = 0 := hts
    rwa [Nat.zero_add] at h
  | cons t ts ih =>
    rw [cons_append] at h
    rcases t.margin_cases with ht | ht | ht
    · rw [closes_cons_indent ht] at h hts
      rw [Nat.add_right_comm] at h
      exact ih h hts
    · rw [closes_cons_dedent ht] at h hts
      rw [show depth + more - 1 = depth - 1 + more by omega] at h
      exact ih h.2 hts.2
    · rw [closes_cons_plain ht] at h hts
      exact ih h hts

theorem closes_of_plain (h : ∀ t ∈ ts, t.kind.isMargin = false) : Closes 0 ts := by
  induction ts with
  | nil => rfl
  | cons t ts ih =>
    obtain ⟨ht, hts⟩ := forall_mem_cons.1 h
    exact (closes_cons_plain ht).2 (ih hts)

theorem closes_of_counts (hwithin : ∀ before, before <+: ts → closed before ≤ depth + opened before)
    (hsettled : closed ts = depth + opened ts) : Closes depth ts := by
  induction ts generalizing depth with
  | nil =>
    have hzero : 0 = depth + 0 := hsettled
    exact hzero.symm
  | cons t ts ih =>
    have hnext (before : List Token) (hbefore : before <+: ts) :=
      hwithin (t :: before) (cons_prefix_cons.2 ⟨rfl, hbefore⟩)
    simp only [closed, opened, countP_cons] at hnext hsettled ih
    rcases t.margin_cases with ht | ht | ht
    · refine (closes_cons_indent ht).2 (ih (fun before hbefore => ?_) (by grind))
      have hle := hnext before hbefore
      grind
    · have hone := hnext [] nil_prefix
      refine (closes_cons_dedent ht).2 ⟨by grind, ih (fun before hbefore => ?_) (by grind)⟩
      have hle := hnext before hbefore
      grind
    · refine (closes_cons_plain ht).2 (ih (fun before hbefore => ?_) (by grind [TokenKind.isMargin]))
      have hle := hnext before hbefore
      grind [TokenKind.isMargin]

theorem Balanced.closes (h : Balanced ts) : Closes 0 ts :=
  closes_of_counts (by simpa using h.within) (by simpa using h.settled)

/-- A block that is opened and closed. -/
theorem Closes.block {u : Token} (h : Closes 0 ts) (ht : t.kind = .indent) (hu : u.kind = .dedent) :
    Closes 0 (t :: (ts ++ [u])) := by
  rw [closes_cons_indent ht]
  refine h.append ?_
  rw [closes_cons_dedent hu]
  exact ⟨Nat.one_pos, rfl⟩

end Token

namespace Grammar

open Token (Closes)

namespace Cursor

variable {c c' c'' : Cursor} {bound depth : Nat}

/-- From the one place to the other, just the blocks are closed that were opened. -/
def Nests (c c' : Cursor) : Prop := ∃ ts, c.rest = ts ++ c'.rest ∧ Token.Balanced ts

theorem nests_of_closes (ts : List Token) (hrest : c.rest = ts ++ c'.rest) (h : Closes 0 ts) : c.Nests c' :=
  ⟨ts, hrest, h.balanced⟩

theorem Nests.refl (c : Cursor) : c.Nests c := nests_of_closes [] rfl rfl

theorem Nests.trans (h : c.Nests c') (h' : c'.Nests c'') : c.Nests c'' := by
  obtain ⟨ts, hts, hbalanced⟩ := h
  obtain ⟨us, hus, hbalanced'⟩ := h'
  refine nests_of_closes (ts ++ us) ?_ (hbalanced.closes.append hbalanced'.closes)
  rw [hts, hus, append_assoc]

theorem Nests.left_le (h : c.Nests c') : c'.left ≤ c.left := by
  obtain ⟨ts, hts, -⟩ := h
  rw [left, left, hts, length_append]
  exact Nat.le_add_left _ _

/-- A stretch of tokens without layout. -/
theorem Reads.nests {ns : List Node} (h : c.Reads true ns c') : c.Nests c' := by
  obtain ⟨ts, hts, -⟩ := h
  refine nests_of_closes ts hts.rest (Token.closes_of_plain fun t ht => ?_)
  exact TokenKind.isMargin_of_not_isLayout ((hts.plain rfl).1 t ht)

theorem nests_advance (h : c.kind.isMargin = false) : c.Nests c.advance := by
  cases hrest : c.rest with
  | nil => exact nests_of_closes [] (by simp [advance, hrest]) rfl
  | cons t ts =>
    have ht : t.kind.isMargin = false := by simpa [kind, current, hrest] using h
    exact nests_of_closes [t] (by simp [advance, hrest]) ((Token.closes_cons_plain ht).2 rfl)

/-- The place is in `depth` blocks, all of which are closed further on, before the end of the file.
-/
structure InBlock (bound depth : Nat) (c : Cursor) : Prop where
  closes : Closes depth c.rest
  ends : ∀ t ∈ c.rest.dropLast, t.kind ≠ .eof
  short : c.left < bound

theorem InBlock.next (h : c.InBlock bound depth) (hnests : c.Nests c') : c'.InBlock bound depth := by
  have hle := hnests.left_le
  have hshort := h.short
  obtain ⟨ts, hts, hbalanced⟩ := hnests
  have hcloses : Closes (0 + depth) (ts ++ c'.rest) := by
    rw [← hts, Nat.zero_add]
    exact h.closes
  refine ⟨hcloses.cancel hbalanced.closes, fun t ht => h.ends t ?_, by omega⟩
  rw [hts]
  cases hrest : c'.rest with
  | nil => simp [hrest] at ht
  | cons u us =>
    rw [dropLast_append_of_ne_nil (by simp), ← hrest]
    exact mem_append_right ts ht

theorem InBlock.kind_ne_eof (h : c.InBlock bound (depth + 1)) : c.kind ≠ .eof := by
  have hcloses := h.closes
  have hends := h.ends
  intro hkind
  cases hrest : c.rest with
  | nil =>
    rw [hrest] at hcloses
    contradiction
  | cons t ts =>
    have ht : t.kind = .eof := by simpa [kind, current, hrest] using hkind
    rw [hrest] at hcloses hends
    cases ts with
    | nil =>
      rw [Token.closes_cons_plain (by rw [ht]; rfl)] at hcloses
      contradiction
    | cons u us => exact hends t (by simp) ht

/-- Outside of all blocks none is closed. -/
theorem InBlock.kind_ne_dedent (h : c.InBlock bound 0) : c.kind ≠ .dedent := by
  have hcloses := h.closes
  intro hkind
  cases hrest : c.rest with
  | nil => simp [kind, current, hrest] at hkind
  | cons t ts =>
    have ht : t.kind = .dedent := by simpa [kind, current, hrest] using hkind
    rw [hrest, Token.closes_cons_dedent ht] at hcloses
    exact Nat.lt_irrefl 0 hcloses.1

theorem exists_rest_of_kind {kind} (h : c.kind = kind) (hkind : kind ≠ .eof) :
    ∃ t, t.kind = kind ∧ c.rest = t :: c.advance.rest := by
  cases hrest : c.rest with
  | nil =>
    have heof : c.kind = .eof := by simp [Cursor.kind, current, hrest]
    exact absurd (h.symm.trans heof) hkind
  | cons t ts => exact ⟨t, by simpa [Cursor.kind, current, hrest] using h, by simp [advance, hrest]⟩

theorem InBlock.enter (h : c.InBlock bound depth) (hkind : c.kind = .indent) : c.advance.InBlock bound (depth + 1) := by
  obtain ⟨t, ht, hrest⟩ := exists_rest_of_kind hkind nofun
  obtain ⟨hcloses, hends, hshort⟩ := h
  rw [hrest] at hcloses hends
  rw [left, hrest, length_cons] at hshort
  refine ⟨(Token.closes_cons_indent ht).1 hcloses, fun u hu => hends u ?_, Nat.lt_of_succ_lt hshort⟩
  cases hrest' : c.advance.rest with
  | nil => simp [hrest'] at hu
  | cons v vs =>
    rw [hrest'] at hu
    exact mem_cons_of_mem t hu

/-- A block is entered, gone through and left. -/
theorem nests_block (hindent : c.kind = .indent) (h : c.advance.Nests c') (hdedent : c'.kind = .dedent) :
    c.Nests c'.advance := by
  obtain ⟨t, ht, hrest⟩ := exists_rest_of_kind hindent nofun
  obtain ⟨u, hu, hrest'⟩ := exists_rest_of_kind hdedent nofun
  obtain ⟨ts, hts, hbalanced⟩ := h
  exact nests_of_closes (t :: (ts ++ [u])) (by simp [hrest, hts, hrest']) (hbalanced.closes.block ht hu)

end Cursor

/-! ### Rules that nest -/

section

variable {α β : Type} {c c' : Cursor} {bound depth : Nat} {x y : Rule α} {a : α}
  (hnests : c.Nests c') {f g : α → Rule β} (hc : c.InBlock bound depth) (what : String)
  (kind : TokenKind) {nodes : α → List Node}

/-- From this place both rules do the same, and reach only places from which just the blocks that were
opened have been closed. -/
structure Keeps (x y : Rule α) (c : Cursor) : Prop where
  same : y c = x c
  ok : ∀ a c', x c = .ok a c' → c.Nests c'
  fault : ∀ d c', x c = .error (.fault d) c' → c.Nests c'

theorem keeps_of_both (hx : x c = .ok a c') (hy : y c = .ok a c') (hnests : c.Nests c') :
    Keeps x y c := by
  refine ⟨hy.trans hx.symm, fun a' c'' h' => ?_, fun d c'' h' => ?_⟩
  · cases hx.symm.trans h'
    exact hnests
  · cases hx.symm.trans h'

theorem keeps_of_ok (h : x c = .ok a c') (hnests : c.Nests c') : Keeps x x c :=
  keeps_of_both h h hnests

theorem keeps_of_exhausted (c' : Cursor) (hx : x c = .error .exhausted c')
    (hy : y c = .error .exhausted c') : Keeps x y c :=
  ⟨hy.trans hx.symm, fun _ _ h => (by cases hx.symm.trans h), fun _ _ h => (by cases hx.symm.trans h)⟩

theorem keeps_of_fault {d : Diagnostic} (h : x c = .error (.fault d) c') (hnests : c.Nests c') :
    Keeps x x c := by
  refine ⟨rfl, fun a' c'' h' => ?_, fun d c'' h' => ?_⟩
  · cases h.symm.trans h'
  · cases h.symm.trans h'
    exact hnests

theorem Keeps.bind {x y : Rule α} {f g : α → Rule β} (hx : Keeps x y c)
    (hf : ∀ a c', x c = .ok a c' → c.Nests c' → Keeps (f a) (g a) c') : Keeps (x >>= f) (y >>= g) c := by
  cases hxc : x c with
  | ok a c' =>
    have hnests := hx.ok a c' hxc
    have hnext := hf a c' hxc hnests
    have hrun := run_bind_ok (f := f) hxc
    have hrun' := run_bind_ok (f := g) (hx.same.trans hxc)
    refine ⟨by rw [hrun, hrun', hnext.same], fun b c'' h => ?_, fun d c'' h => ?_⟩
    · exact hnests.trans (hnext.ok b c'' (hrun.symm.trans h))
    · exact hnests.trans (hnext.fault d c'' (hrun.symm.trans h))
  | error e c' =>
    have hrun := run_bind_error (f := f) hxc
    have hrun' := run_bind_error (f := g) (hx.same.trans hxc)
    refine ⟨by rw [hrun, hrun'], fun b c'' h => ?_, fun d c'' h => ?_⟩
    · cases hrun.symm.trans h
    · cases hrun.symm.trans h
      exact hx.fault d c' hxc

theorem Keeps.next (hx : Keeps x y c) (hc : c.InBlock bound depth)
    (hf : ∀ a c', c'.InBlock bound depth → Keeps (f a) (g a) c') : Keeps (x >>= f) (y >>= g) c :=
  hx.bind fun a c' _ hnests => hf a c' (hc.next hnests)

/-- A rule that only tells something. -/
theorem Keeps.look (hx : x c = .ok a c) (hf : Keeps (f a) (g a) c) :
    Keeps (x >>= f) (x >>= g) c := by
  refine (keeps_of_ok hx (.refl c)).bind fun a' c' h _ => ?_
  cases hx.symm.trans h
  exact hf

theorem keeps_pure (a : α) (c : Cursor) : Keeps (pure a) (pure a) c := keeps_of_ok rfl (.refl c)

theorem keeps_unexpected (c : Cursor) : Keeps (unexpected (α := α) what) (unexpected what) c := by
  obtain ⟨d, h, -⟩ := run_unexpected (α := α) what c
  exact keeps_of_fault h (.refl c)

theorem keeps_advance (h : c.kind.isMargin = false) : Keeps (discard advance) (discard advance) c :=
  keeps_of_ok rfl (Cursor.nests_advance h)

theorem keeps_eat (c : Cursor) (hkind : kind.isMargin = false) : Keeps (eat kind) (eat kind) c := by
  by_cases hc : c.kind = kind
  · exact keeps_of_ok (run_eat hc) (Cursor.nests_advance (hc ▸ hkind))
  · exact keeps_of_ok (run_eat_of_ne hc) (.refl c)

theorem keeps_eat_discard (c : Cursor) (hkind : kind.isMargin = false) :
    Keeps (discard (eat kind)) (discard (eat kind)) c := by
  by_cases hc : c.kind = kind
  · exact keeps_of_ok (run_discard_ok (run_eat hc)) (Cursor.nests_advance (hc ▸ hkind))
  · exact keeps_of_ok (run_discard_ok (run_eat_of_ne hc)) (.refl c)

theorem keeps_expect (c : Cursor) (hkind : kind.isMargin = false) :
    Keeps (discard (expect kind what)) (discard (expect kind what)) c := by
  by_cases hc : c.kind = kind
  · exact keeps_of_ok (run_discard_ok (run_expect hc)) (Cursor.nests_advance (hc ▸ hkind))
  · have hexpect : expect kind what c = unexpected what c := by
      show (if (c.kind == kind) = true then _ else _ : Rule Token) c = _
      rw [if_neg (by simpa using hc)]
    obtain ⟨d, heq, -⟩ := run_unexpected (α := Token) what c
    exact keeps_of_fault (run_discard_error (hexpect.trans heq)) (.refl c)

/-- Rules that read no layout tokens. -/
theorem Meets.keeps {Q : α → Cursor → Prop} (h : Meets true c x c Q)
    (hQ : ∀ a c', Q a c' → ∃ ns, c.Reads true ns c') : Keeps x x c := by
  rcases h.cases with ⟨a, c', hx, ha⟩ | ⟨d, c', hx, hreads, -⟩
  · obtain ⟨ns, hns⟩ := hQ a c' ha
    exact keeps_of_ok hx hns.nests
  · exact keeps_of_fault hx hreads.nests

theorem Reader.keeps (h : Reader true nodes bound x) (hc : c.InBlock bound depth) : Keeps x x c :=
  (h c hc.short).keeps fun _ _ ha => ⟨_, ha.1⟩

theorem MaybeReader.keeps {x : Rule (Option α)} (h : MaybeReader true nodes bound x)
    (hc : c.InBlock bound depth) : Keeps x x c :=
  (h c hc.short).keeps fun _ _ ha => ⟨_, ha.1⟩

theorem ReadsAt.keeps (h : ReadsAt true nodes c x) : Keeps x x c :=
  Meets.keeps h fun _ _ ha => ⟨_, ha⟩

theorem keeps_many {rule rule' : Rule (Option α)} (h : ∀ {c}, c.InBlock bound depth → Keeps rule rule' c) (rounds : Nat)
    (hc : c.InBlock bound depth) : Keeps (many rule rounds) (many rule' rounds) c := by
  induction rounds generalizing c with
  | zero => exact keeps_of_exhausted c rfl rfl
  | succ rounds ih =>
    refine (h hc).bind fun o c' _ hnests => ?_
    cases o with
    | none => exact keeps_pure _ _
    | some a => exact (ih (hc.next hnests)).bind fun as c'' _ _ => keeps_pure _ _

end

/-! ### Statements -/

/-- From this place both rules do the same. They never fail, and end at a token of the given kind with no
more blocks open. -/
structure Loops {α : Type} (stop : TokenKind) (x y : Rule α) (c : Cursor) : Prop where
  same : y c = x c
  ends : ∀ a c', x c = .ok a c' → c.Nests c' ∧ c'.kind = stop
  sound : ∀ d c', x c ≠ .error (.fault d) c'

/-- The statements of a block are read up to where it is closed, and the rules on both sides do the
same. -/
structure BlockRules.Agree (bound : Nat) (inner watched : BlockRules) : Prop where
  rounds : watched.rounds = inner.rounds
  statements : ∀ {depth c}, c.InBlock bound (depth + 1) →
    Loops .dedent (inner.statements .dedent) (watched.statements .dedent) c
  ifStatement : ∀ {depth c}, c.InBlock bound depth → c.kind.isMargin = false →
    Keeps inner.ifStatement watched.ifStatement c

section

variable {r : Rules} {inner watched : BlockRules} {c : Cursor} {depth : Nat}

theorem keeps_simpleStatements (hr : r.Good) (hc : c.InBlock r.rounds depth) :
    Keeps (simpleStatements r) (simpleStatements r) c := by
  have hsmall {c : Cursor} (hc : c.InBlock r.rounds depth) := (reader_smallStatement hr).keeps hc
  refine (hsmall hc).bind fun first c₁ _ hnests => ?_
  refine (keeps_many (fun {c} hc => ?_) _ (hc.next hnests)).bind fun more c₂ _ _ => .look rfl ?_
  · refine (keeps_eat _ _ rfl).bind fun b c' _ hnests => ?_
    cases b with
    | false => exact keeps_pure _ _
    | true =>
      obtain ⟨stops, hstops⟩ := looks_atLineEnd c'
      refine .look hstops ?_
      cases stops with
      | true => exact keeps_pure _ _
      | false => exact (hsmall (hc.next hnests)).bind fun s c'' _ _ => keeps_pure _ _
  · cases c₂.kind == .eof with
    | true => exact keeps_pure _ _
    | false => exact (keeps_expect _ _ _ rfl).bind fun _ c₃ _ _ => keeps_pure _ _

theorem keeps_decorator (hr : r.Good) {c : Cursor} (hc : c.InBlock r.rounds depth) : Keeps (decorator r) (decorator r) c := by
  refine (keeps_eat _ _ rfl).bind fun b c₁ _ hnests => ?_
  cases b with
  | false => exact keeps_pure _ _
  | true =>
    refine ((reader_named hr).keeps (hc.next hnests)).bind fun e c₂ _ _ => ?_
    exact (keeps_expect _ _ _ rfl).bind fun _ c₃ _ _ => keeps_pure _ _

section

variable (hr : r.Good) (hinner : inner.Agree r.rounds watched)
include hr hinner

theorem keeps_block (hc : c.InBlock r.rounds depth) : Keeps (block r inner) (block r watched) c := by
  refine (keeps_expect _ _ _ rfl).bind fun _ c₁ _ hnests => ?_
  have hc₁ := hc.next hnests
  refine (keeps_eat _ _ rfl).bind fun b c₂ _ hnests => ?_
  have hc₂ := hc₁.next hnests
  cases b with
  | false => exact keeps_simpleStatements hr hc₂
  | true =>
    by_cases hindent : c₂.kind = .indent
    · have hloops := hinner.statements (hc₂.enter hindent)
      have henter : eat .indent c₂ = .ok true c₂.advance := run_eat hindent
      cases hbody : inner.statements .dedent c₂.advance with
      | ok ss c₄ =>
        obtain ⟨hnests, hdedent⟩ := hloops.ends _ _ hbody
        have hbody' := hloops.same.trans hbody
        have hleave : discard (eat .dedent) c₄ = .ok () c₄.advance := run_discard_ok (run_eat hdedent)
        refine keeps_of_both (a := ss) ?_ ?_ (Cursor.nests_block hindent hnests hdedent)
        · exact (run_bind_ok henter).trans ((run_bind_ok hbody).trans (run_bind_ok hleave))
        · exact (run_bind_ok henter).trans ((run_bind_ok hbody').trans (run_bind_ok hleave))
      | error e c₄ =>
        cases e with
        | fault d => exact absurd hbody (hloops.sound d c₄)
        | exhausted =>
          have hbody' := hloops.same.trans hbody
          refine keeps_of_exhausted c₄ ?_ ?_
          · exact (run_bind_ok henter).trans (run_bind_error hbody)
          · exact (run_bind_ok henter).trans (run_bind_error hbody')
    · refine .look (run_eat_of_ne hindent) ?_
      exact (keeps_unexpected _ _)

theorem keeps_elseBlock (hc : c.InBlock r.rounds depth) : Keeps (elseBlock r inner) (elseBlock r watched) c := by
  refine (keeps_eat _ _ rfl).bind fun b c₁ _ hnests => ?_
  cases b with
  | false => exact keeps_pure _ _
  | true => exact keeps_block hr hinner (hc.next hnests)

theorem keeps_functionDef (decorators : List Expr) (hc : c.InBlock r.rounds depth) :
    Keeps (functionDef r inner decorators) (functionDef r watched decorators) c := by
  refine .look rfl ((keeps_eat _ _ rfl).next hc fun isAsync c₁ hc => ?_)
  refine (keeps_expect _ _ _ rfl).next hc fun _ c₂ hc => ?_
  refine ((reader_identifier _).keeps hc).next hc fun name c₃ hc => ?_
  refine (keeps_expect _ _ _ rfl).next hc fun _ c₄ hc => ?_
  refine (readsAt_params hr hc.short).keeps.next hc fun params c₅ hc => ?_
  refine (keeps_expect _ _ _ rfl).next hc fun _ c₆ hc => ?_
  have hreturns : MaybeReader true _ r.rounds _ := maybeReader_optional (asks_eat Symbol.arrow rfl) hr.expression
  refine (hreturns.keeps hc).bind fun returns c₇ _ hnests => .look rfl ?_
  exact (keeps_block hr hinner (hc.next hnests)).bind fun body c₈ _ _ => keeps_pure _ _

theorem keeps_classDef (decorators : List Expr) (hc : c.InBlock r.rounds depth) :
    Keeps (classDef r inner decorators) (classDef r watched decorators) c := by
  refine .look rfl ((keeps_expect _ _ _ rfl).next hc fun _ c₁ hc => ?_)
  refine ((reader_identifier _).keeps hc).next hc fun name c₂ hc => ?_
  have hbody {args : List Arg} {c : Cursor} (hc : c.InBlock r.rounds depth) {start : Span} :
      Keeps (finish start >>= fun span => block r inner >>= fun body => pure (Stmt.classDef
        { span, name, bases := basesOf args, keywords := classKeywordsOf args, body, decorators }))
        (finish start >>= fun span => block r watched >>= fun body => pure (Stmt.classDef
        { span, name, bases := basesOf args, keywords := classKeywordsOf args, body, decorators })) c :=
    .look rfl ((keeps_block hr hinner hc).bind fun body _ _ _ => keeps_pure _ _)
  refine (keeps_eat _ _ rfl).next hc fun b c₃ hc => ?_
  cases b with
  | false => exact hbody hc
  | true => exact ((reader_arguments hr).keeps hc).next hc fun args c₄ hc => hbody hc

section

variable (hc : c.InBlock r.rounds depth)
include hc

theorem keeps_decorated : Keeps (decorated r inner) (decorated r watched) c := by
  refine (keeps_many (keeps_decorator hr) _ hc).bind fun decorators c₁ _ hnests => .look rfl ?_
  have hc := hc.next hnests
  cases c₁.kind with
  | keyword word =>
    cases word with
    | defKw | asyncKw => exact keeps_functionDef hr hinner decorators hc
    | classKw => exact keeps_classDef hr hinner decorators hc
    | _ => exact keeps_unexpected _ _
  | _ => exact keeps_unexpected _ _

theorem keeps_ifStatement (hfirst : c.kind.isMargin = false) :
    Keeps (ifStatement r inner) (ifStatement r watched) c := by
  refine .look rfl ((keeps_advance hfirst).next hc fun _ c₁ hc => ?_)
  refine ((reader_named hr).keeps hc).next hc fun test c₂ hc => ?_
  refine (keeps_block hr hinner hc).bind fun body c₃ _ hnests => .look rfl ?_
  have hc := hc.next hnests
  cases hkind : c₃.kind with
  | keyword word =>
    have hplain : c₃.kind.isMargin = false := by rw [hkind]; rfl
    cases word with
    | elifKw =>
      exact (hinner.ifStatement hc hplain).bind fun s c₄ _ _ => .look rfl (.look rfl (keeps_pure _ _))
    | elseKw =>
      refine (keeps_advance hplain).bind fun _ c₄ _ hnests => ?_
      exact (keeps_block hr hinner (hc.next hnests)).bind fun orElse c₅ _ _ => .look rfl (keeps_pure _ _)
    | _ => exact .look rfl (.look rfl (keeps_pure _ _))
  | _ => exact .look rfl (.look rfl (keeps_pure _ _))

theorem keeps_whileStatement (hfirst : c.kind.isMargin = false) :
    Keeps (whileStatement r inner) (whileStatement r watched) c := by
  refine .look rfl ((keeps_advance hfirst).next hc fun _ c₁ hc => ?_)
  refine ((reader_named hr).keeps hc).next hc fun test c₂ hc => ?_
  refine (keeps_block hr hinner hc).bind fun body c₃ _ hnests => ?_
  exact (keeps_elseBlock hr hinner (hc.next hnests)).bind fun orElse c₄ _ _ => .look rfl (keeps_pure _ _)

theorem keeps_forStatement : Keeps (forStatement r inner) (forStatement r watched) c := by
  refine .look rfl ((keeps_eat _ _ rfl).next hc fun isAsync c₁ hc => ?_)
  refine (keeps_expect _ _ _ rfl).next hc fun _ c₂ hc => ?_
  refine ((meets_targetList hr hc.short).keeps fun _ _ h => ⟨_, h.1.1⟩).next hc fun target c₃ hc => ?_
  refine (keeps_expect _ _ _ rfl).next hc fun _ c₄ hc => ?_
  refine ((reader_expressionList hr).keeps hc).next hc fun iter c₅ hc => ?_
  refine (keeps_block hr hinner hc).bind fun body c₆ _ hnests => ?_
  exact (keeps_elseBlock hr hinner (hc.next hnests)).bind fun orElse c₇ _ _ => .look rfl (keeps_pure _ _)

end

theorem keeps_handler {c : Cursor} (hc : c.InBlock r.rounds depth) : Keeps (handler r inner) (handler r watched) c := by
  refine .look rfl ?_
  cases hexcept : c.kind == Keyword.exceptKw with
  | false => exact keeps_pure _ _
  | true =>
    have hkind : c.kind = Keyword.exceptKw := beq_iff_eq.1 hexcept
    refine .look rfl ((keeps_advance (by rw [hkind]; rfl)).next hc fun _ c₁ hc => ?_)
    refine (keeps_eat_discard _ _ rfl).next hc fun _ c₂ hc => ?_
    have htype : MaybeReader true _ r.rounds _ :=
      maybeReader_optional (looks_check Symbol.colon).not.asks hr.expression
    refine (htype.keeps hc).next hc fun type c₃ hc => ?_
    have hend {name : Option Ident} {c : Cursor} (hc : c.InBlock r.rounds depth) {start : Span} :
        Keeps (finish start >>= fun span => block r inner >>= fun body => pure (some ⟨span, type, name, body⟩))
          (finish start >>= fun span => block r watched >>= fun body => pure (some (ExceptHandler.mk span type name body))) c :=
      .look rfl ((keeps_block hr hinner hc).bind fun body _ _ _ => keeps_pure _ _)
    cases type with
    | none => exact .look rfl (hend hc)
    | some e => exact ((maybeReader_localName _).keeps hc).next hc fun name c₄ hc => hend hc

section

variable (hc : c.InBlock r.rounds depth)
include hc

theorem keeps_tryStatement (hfirst : c.kind.isMargin = false) :
    Keeps (tryStatement r inner) (tryStatement r watched) c := by
  refine .look rfl ((keeps_advance hfirst).next hc fun _ c₁ hc => ?_)
  refine (keeps_block hr hinner hc).next hc fun body c₂ hc => ?_
  refine (keeps_many (keeps_handler hr hinner) _ hc).next hc fun handlers c₃ hc => ?_
  refine (keeps_elseBlock hr hinner hc).next hc fun orElse c₄ hc => ?_
  have hend {finalBody : List Stmt} {c : Cursor} {start : Span} :
      Keeps (if (handlers.isEmpty && finalBody.isEmpty) = true then unexpected "'except' or 'finally'" else
          finish start >>= fun span => pure (Stmt.try span body handlers orElse finalBody))
        (if (handlers.isEmpty && finalBody.isEmpty) = true then unexpected "'except' or 'finally'" else
          finish start >>= fun span => pure (Stmt.try span body handlers orElse finalBody)) c := by
    split
    · exact keeps_unexpected _ _
    · exact .look rfl (keeps_pure _ _)
  refine (keeps_eat _ _ rfl).bind fun b c₅ _ hnests => ?_
  cases b with
  | false => exact .look rfl hend
  | true => exact (keeps_block hr hinner (hc.next hnests)).bind fun finalBody c₆ _ _ => hend

theorem keeps_withStatement : Keeps (withStatement r inner) (withStatement r watched) c := by
  refine .look rfl ((keeps_eat _ _ rfl).next hc fun isAsync c₁ hc => ?_)
  refine (keeps_expect _ _ _ rfl).next hc fun _ c₂ hc => ?_
  have hbody {items : List WithItem} {c : Cursor} (hc : c.InBlock r.rounds depth) {start : Span} :
      Keeps (block r inner >>= fun body => finish start >>= fun span => pure (Stmt.with span items body isAsync))
        (block r watched >>= fun body => finish start >>= fun span => pure (Stmt.with span items body isAsync)) c :=
    (keeps_block hr hinner hc).bind fun body _ _ _ => .look rfl (keeps_pure _ _)
  have hitems (inParens : Bool) {c : Cursor} (hc : c.InBlock r.rounds depth) :=
    (readsAt_separated (looks_closing inParens) (reader_withItem hr) hc.short (Nat.lt_succ_of_lt hc.short)).keeps
  have hrest (inParens : Bool) {c : Cursor} (hc : c.InBlock r.rounds depth) {start : Span} :
      Keeps (do
        let items ← separated (if inParens then check Symbol.rightParen else return false) (withItem r) (r.rounds + 1)
        if inParens then discard <| expect Symbol.rightParen "')'"
        let body ← block r inner
        return Stmt.with (← finish start) items body isAsync)
      (do
        let items ← separated (if inParens then check Symbol.rightParen else return false) (withItem r) (r.rounds + 1)
        if inParens then discard <| expect Symbol.rightParen "')'"
        let body ← block r watched
        return Stmt.with (← finish start) items body isAsync) c := by
    refine (hitems inParens hc).next hc fun items c₃ hc => ?_
    cases inParens with
    | false => exact hbody hc
    | true => exact (keeps_expect _ _ _ rfl).next hc fun _ c₄ hc => hbody hc
  refine .look rfl (.look rfl ?_)
  cases hparen : c₂.kind == Symbol.leftParen with
  | false => exact hrest false hc
  | true =>
    have hkind : c₂.kind = Symbol.leftParen := beq_iff_eq.1 hparen
    generalize (true && opensItems 0 c₂.rest) = inParens
    cases inParens with
    | false => exact hrest false hc
    | true => exact (keeps_advance (by rw [hkind]; rfl)).next hc fun _ c₃ hc => hrest true hc

theorem keeps_statement : Keeps (statement r inner) (statement r watched) c := by
  have hone {x y : Rule Stmt} (h : Keeps x y c) : Keeps (x >>= fun s => pure [s]) (y >>= fun s => pure [s]) c :=
    h.bind fun s c' _ _ => keeps_pure _ _
  have hsimple := keeps_simpleStatements hr hc
  refine .look rfl ?_
  cases hkind : c.kind with
  | keyword word =>
    have hfirst : c.kind.isMargin = false := by rw [hkind]; rfl
    have hdef := keeps_functionDef hr hinner [] hc
    have hfor := keeps_forStatement hr hinner hc
    have hwith := keeps_withStatement hr hinner hc
    cases word with
    | defKw => exact hone hdef
    | classKw => exact hone (keeps_classDef hr hinner [] hc)
    | asyncKw =>
      have hother : Keeps (discard advance >>= fun _ => unexpected (α := List Stmt) "'def', 'for' or 'with' after 'async'")
          (discard advance >>= fun _ => unexpected "'def', 'for' or 'with' after 'async'") c :=
        (keeps_advance hfirst).bind fun _ c' _ _ => keeps_unexpected _ _
      refine .look rfl ?_
      cases c.nextKind with
      | keyword word =>
        cases word with
        | defKw => exact hone hdef
        | forKw => exact hone hfor
        | withKw => exact hone hwith
        | _ => exact hother
      | _ => exact hother
    | ifKw => exact hone (keeps_ifStatement hr hinner hc hfirst)
    | whileKw => exact hone (keeps_whileStatement hr hinner hc hfirst)
    | forKw => exact hone hfor
    | tryKw => exact hone (keeps_tryStatement hr hinner hc hfirst)
    | withKw => exact hone hwith
    | _ => exact hsimple
  | symbol mark =>
    cases mark with
    | «at» => exact hone (keeps_decorated hr hinner hc)
    | _ => exact hsimple
  | indent => exact .look rfl (keeps_of_fault rfl (.refl c))
  | _ => exact hsimple

end

end

end

end Grammar

end TypeInfer
