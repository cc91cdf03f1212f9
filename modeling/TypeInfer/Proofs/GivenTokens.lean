/-
Rules where it is known what tokens are ahead. `Gives` says that a rule takes certain tokens and no
more, and what comes of them, wherever in a text they stand.
-/
import TypeInfer.Proofs.Ladder
import TypeInfer.Proofs.RuleLogic

namespace TypeInfer.Grammar

open List

variable {rule : Rule α} {f : Bool → Rule α} {tokens : β → List TokenKind} {u : α → γ} {v : β → γ}
  {bs : List β}

/-! ### Tokens ahead -/

namespace Cursor

variable (c : Cursor) (n : Nat)

/-- The kinds of the tokens that are left. -/
def kinds (c : Cursor) : List TokenKind := c.rest.map Token.kind

/-- The place after a number of tokens. -/
def past (c : Cursor) : Nat → Cursor
  | 0 => c
  | n + 1 => c.advance.past n

theorem kind_eq : c.kind = c.kinds.headD .eof := by
  unfold kind current kinds
  cases c.rest <;> rfl

theorem nextKind_eq : c.nextKind = c.kinds.tail.headD .eof := by
  unfold nextKind kinds
  rcases c.rest with _ | ⟨t, _ | ⟨u, ts⟩⟩ <;> rfl

theorem kinds_advance : c.advance.kinds = c.kinds.tail := by
  show c.rest.tail.map Token.kind = (c.rest.map Token.kind).tail
  exact map_tail

theorem past_succ : c.past (n + 1) = c.advance.past n := rfl

theorem kinds_past : (c.past n).kinds = c.kinds.drop n := by
  induction n generalizing c with
  | zero => rfl
  | succ n ih => rw [past_succ, ih, kinds_advance, drop_tail]

theorem past_past (m n : Nat) : (c.past m).past n = c.past (m + n) := by
  induction m generalizing c with
  | zero =>
    rw [Nat.zero_add]
    rfl
  | succ m ih => rw [past_succ, ih, Nat.succ_add, past_succ]

theorem rest_past : (c.past n).rest = c.rest.drop n := by
  induction n generalizing c with
  | zero => rfl
  | succ n ih => rw [past_succ, ih, ← drop_tail]; rfl

theorem faults_past : (c.past n).faults = c.faults := by
  induction n generalizing c with
  | zero => rfl
  | succ n ih => rw [past_succ, ih]; rfl

end Cursor

/-- Where the tokens `ts` and after them `ks` are ahead, the rule takes `ts`, and its result is as
told. -/
def Gives (rule : Rule α) (ts ks : List TokenKind) (P : α → Prop) : Prop :=
  ∀ c : Cursor, c.kinds = ts ++ ks → ∃ a, rule c = .ok a (c.past ts.length) ∧ P a

variable {ts us ks : List TokenKind} {kind : TokenKind} {P : α → Prop} {Q : β → Prop}

theorem Gives.mono {P'} (h : Gives rule ts ks P) (hP : ∀ a, P a → P' a) : Gives rule ts ks P' := by
  intro c hc
  obtain ⟨a, hrule, ha⟩ := h c hc
  exact ⟨a, hrule, hP a ha⟩

theorem gives_pure {a} (h : P a) : Gives (pure a) [] ks P := fun _ _ => ⟨a, rfl, h⟩

theorem Gives.bind {f} (h : Gives rule ts (us ++ ks) P) (hf : ∀ a, P a → Gives (f a) us ks Q) :
    Gives (rule >>= f) (ts ++ us) ks Q := by
  intro c hc
  rw [append_assoc] at hc
  obtain ⟨a, hrule, ha⟩ := h c hc
  have hpast : (c.past ts.length).kinds = us ++ ks := by rw [Cursor.kinds_past, hc, drop_left]
  obtain ⟨b, hf, hb⟩ := hf a ha _ hpast
  refine ⟨b, ?_, hb⟩
  rw [run_bind_ok hrule, hf, Cursor.past_past, length_append]

theorem Gives.pack {f} (h : Gives rule ts ks P) (hf : ∀ a, P a → Gives (f a) [] ks Q) :
    Gives (rule >>= f) ts ks Q := by
  have hbind : Gives (rule >>= f) (ts ++ []) ks Q := Gives.bind h hf
  rwa [append_nil] at hbind

theorem gives_here {f} (h : ∀ span, Gives (f span) ts ks P) : Gives (here >>= f) ts ks P :=
  fun c hc => h c.current.span c hc

theorem gives_finish {f start} (h : ∀ span, Gives (f span) ts ks P) :
    Gives (finish start >>= f) ts ks P :=
  fun c hc => h (start.merge c.last) c hc

theorem gives_peek {f} (h : Gives (f ((ts ++ ks).headD .eof)) ts ks P) :
    Gives (peek >>= f) ts ks P := by
  intro c hc
  have hkind : c.kind = (ts ++ ks).headD .eof := by rw [c.kind_eq, hc]
  show ∃ a, f c.kind c = _ ∧ _
  rw [hkind]
  exact h c hc

theorem gives_peekNext {f} (h : Gives (f ((ts ++ ks).tail.headD .eof)) ts ks P) :
    Gives (peekNext >>= f) ts ks P := by
  intro c hc
  have hnext : c.nextKind = (ts ++ ks).tail.headD .eof := by rw [c.nextKind_eq, hc]
  show ∃ a, f c.nextKind c = _ ∧ _
  rw [hnext]
  exact h c hc

theorem gives_check (heq : (ts ++ ks).headD .eof = kind) (h : Gives (f true) ts ks P) :
    Gives (check kind >>= f) ts ks P := by
  refine gives_peek (f := fun k => f (k == kind)) ?_
  rwa [beq_iff_eq.2 heq]

theorem gives_check_of_ne {f} (hne : (ts ++ ks).headD .eof ≠ kind) (h : Gives (f false) ts ks P) :
    Gives (check kind >>= f) ts ks P := by
  refine gives_peek (f := fun k => f (k == kind)) ?_
  rwa [beq_eq_false_iff_ne.2 hne]

theorem gives_take {f} (h : Gives (f ()) ts ks P) :
    Gives (discard advance >>= f) (kind :: ts) ks P := by
  intro c hc
  have hadvance : c.advance.kinds = ts ++ ks := by rw [Cursor.kinds_advance, hc]; rfl
  exact h c.advance hadvance

theorem gives_eat (h : Gives (f true) ts ks P) : Gives (eat kind >>= f) (kind :: ts) ks P := by
  intro c hc
  have hkind : c.kind = kind := by rw [c.kind_eq, hc]; rfl
  rw [run_bind_ok (run_eat hkind)]
  exact gives_take (f := fun _ => f true) h c hc

theorem gives_eat_of_ne {f} (hne : (ts ++ ks).headD .eof ≠ kind) (h : Gives (f false) ts ks P) :
    Gives (eat kind >>= f) ts ks P := by
  intro c hc
  have hkind : c.kind ≠ kind := by rwa [c.kind_eq, hc]
  rw [run_bind_ok (run_eat_of_ne hkind)]
  exact h c hc

theorem gives_expect {f what} (h : Gives (f ()) ts ks P) :
    Gives (discard (expect kind what) >>= f) (kind :: ts) ks P := by
  intro c hc
  have hkind : c.kind = kind := by rw [c.kind_eq, hc]; rfl
  rw [run_bind_ok (run_discard_ok (run_expect hkind))]
  exact gives_take h c hc

theorem gives_identifier {f name} (h : ∀ span, Gives (f ⟨name, span⟩) ts ks P) :
    Gives (identifier >>= f) (.ident name :: ts) ks P := by
  intro c hc
  have hkind : c.kind = .ident name := by rw [c.kind_eq, hc]; rfl
  rw [run_bind_ok (run_identifier hkind)]
  exact gives_take (f := fun _ => f ⟨name, c.current.span⟩) (h _) c hc

/-! ### Repetition -/

theorem gives_many {rule : Rule (Option α)} {Before : List TokenKind → Prop} {n rounds : Nat}
    (hitem : ∀ b ∈ bs, ∀ later, Before later → (tokens b).length + later.length ≤ n → Gives rule (tokens b) later fun o => ∃ a, o = some a ∧ u a = v b)
    (hbefore : ∀ b ∈ bs, ∀ later, Before (tokens b ++ later) ∧ 0 < (tokens b).length)
    (hlast : Gives rule [] ks fun o => o = none) (hend : Before ks)
    (hn : (bs.flatMap tokens).length + ks.length ≤ n)
    (hrounds : (bs.flatMap tokens).length < rounds) :
    Gives (many rule rounds) (bs.flatMap tokens) ks fun as => as.map u = bs.map v := by
  induction bs generalizing rounds with
  | nil =>
    obtain ⟨rounds, rfl⟩ := Nat.exists_eq_add_one_of_ne_zero (Nat.ne_zero_of_lt hrounds)
    refine hlast.pack fun o ho => ?_
    subst ho
    exact gives_pure rfl
  | cons b bs ih =>
    obtain ⟨rounds, rfl⟩ := Nat.exists_eq_add_one_of_ne_zero (Nat.ne_zero_of_lt hrounds)
    obtain ⟨hb, hbs⟩ := forall_mem_cons.1 hitem
    obtain ⟨hbb, hbbs⟩ := forall_mem_cons.1 hbefore
    have hpos := (hbb []).2
    rw [flatMap_cons, length_append] at hn hrounds
    have hlater : Before (bs.flatMap tokens ++ ks) := by
      cases bs with
      | nil => exact hend
      | cons b' bs =>
        rw [flatMap_cons, append_assoc]
        exact (hbbs b' (by simp) _).1
    rw [flatMap_cons]
    refine (hb _ hlater (by rw [length_append]; omega)).bind fun o ho => ?_
    obtain ⟨a, rfl, ha⟩ := ho
    have hmore := ih hbs hbbs (by omega) (show _ < rounds by omega)
    exact hmore.pack fun as has => gives_pure (by rw [map_cons, map_cons, ha, has])

theorem gives_separated {item : Rule α} {tokens : β → List TokenKind} {u : α → γ} {v : β → γ} {close : TokenKind}
    {bs : List β} {n rounds : Nat} (hclose : close ≠ .symbol .comma)
    (hitem : ∀ b ∈ bs, ∀ later, later.headD .eof = .symbol .comma ∨ later.headD .eof = close →
      (tokens b).length + later.length < n → Gives item (tokens b) later fun a => u a = v b)
    (hbegins : ∀ b ∈ bs, ∀ later, (tokens b ++ later).headD .eof ≠ close)
    (hn : (joined (.symbol .comma) (bs.map tokens)).length + (ks.length + 1) < n)
    (hrounds : (joined (.symbol .comma) (bs.map tokens)).length < rounds) :
    Gives (separated (check close) item rounds) (joined (.symbol .comma) (bs.map tokens)) (close :: ks)
      fun as => as.map u = bs.map v := by
  induction bs generalizing rounds with
  | nil =>
    obtain ⟨rounds, rfl⟩ := Nat.exists_eq_add_one_of_ne_zero (Nat.ne_zero_of_lt hrounds)
    exact gives_check rfl (gives_pure rfl)
  | cons b bs ih =>
    obtain ⟨rounds, rfl⟩ := Nat.exists_eq_add_one_of_ne_zero (Nat.ne_zero_of_lt hrounds)
    obtain ⟨hb, hbs⟩ := forall_mem_cons.1 hitem
    obtain ⟨hne, hbegins⟩ := forall_mem_cons.1 hbegins
    have hcheck := hne ((bs.map tokens).flatMap (.symbol .comma :: ·) ++ close :: ks)
    rw [← append_assoc] at hcheck
    refine gives_check_of_ne hcheck ?_
    cases bs with
    | nil =>
      simp only [map_cons, map_nil, joined, flatMap_nil, append_nil] at hn
      refine (hb (close :: ks) (.inr rfl) hn).bind fun a ha => ?_
      exact gives_eat_of_ne hclose (gives_pure (by simpa using ha))
    | cons b' bs =>
      rw [map_cons, map_cons, joined_cons_cons] at hn hrounds ⊢
      simp only [length_append, length_cons] at hn hrounds
      have hfirst := hb (.symbol .comma :: (joined (.symbol .comma) (tokens b' :: bs.map tokens) ++ close :: ks))
        (.inl rfl) (by simp only [length_append, length_cons]; omega)
      refine hfirst.bind fun a ha => gives_eat ?_
      have hmore := ih hbs hbegins (by rw [map_cons]; omega) (show _ < rounds by rw [map_cons]; omega)
      exact hmore.pack fun as has => gives_pure (by rw [map_cons, ha, has]; rfl)

end TypeInfer.Grammar
