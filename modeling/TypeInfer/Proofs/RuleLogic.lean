/-
What rules do to the cursor. `Cursor.Reads` relates two places of one run: the tokens between them,
and the nodes read from these. `Meets` says what holds after a rule: it does not run out of rounds,
and if it succeeds, then as the condition says. The small steps have a lemma each, for a step
followed by others; `Reader` is what is shown of a rule in the end.
-/
import TypeInfer.Grammar.Module
import TypeInfer.Proofs.Derivation

namespace TypeInfer

open List

/-- The code is one of those for faults of a text. -/
def Diagnostic.IsFault (d : Diagnostic) : Prop :=
  d.code ∈ [Code.unexpectedToken, Code.unterminatedString, Code.unexpectedIndent, Code.inconsistentDedent,
    Code.invalidTarget, Code.unexpectedEnd]

namespace Grammar

/-! ### Places -/

namespace Cursor

/-- How many tokens are left. -/
def left (c : Cursor) : Nat := c.rest.length

/-- The tokens were taken between two places; a plain stretch has no layout and no faults. -/
structure Takes (plain : Bool) (c : Cursor) (ts : List Token) (c' : Cursor) : Prop where
  rest : c.rest = ts ++ c'.rest
  last : c'.last = lastSpan c.last ts
  stop : c'.stop = c.stop
  faults : c.faults <+: c'.faults
  found : ∀ d ∈ c'.faults, d ∈ c.faults ∨ d.IsFault
  plain : plain = true → (∀ t ∈ ts, t.kind.isLayout = false) ∧ c'.faults = c.faults

/-- The nodes were read between two places, unless faults were put on record. -/
def Reads (plain : Bool) (c : Cursor) (ns : List Node) (c' : Cursor) : Prop :=
  ∃ ts, c.Takes plain ts c' ∧ (c'.faults = c.faults → Derives ts ns)

variable {plain : Bool} {c c' c'' : Cursor} {ts us : List Token} {ns ms : List Node}

theorem Takes.refl (plain : Bool) (c : Cursor) : c.Takes plain [] c :=
  ⟨rfl, rfl, rfl, prefix_refl _, fun _ => .inl, fun _ => ⟨by simp, rfl⟩⟩

theorem Takes.trans (h : c.Takes plain ts c') (h' : c'.Takes plain us c'') : c.Takes plain (ts ++ us) c'' where
  rest := by rw [h.rest, h'.rest, append_assoc]
  last := by rw [h'.last, h.last, lastSpan_append]
  stop := h'.stop.trans h.stop
  faults := h.faults.trans h'.faults
  found d hd := (h'.found d hd).elim (h.found d) .inr
  plain hp := ⟨forall_mem_append.2 ⟨(h.plain hp).1, (h'.plain hp).1⟩, (h'.plain hp).2.trans (h.plain hp).2⟩

theorem Takes.left_eq (h : c.Takes plain ts c') : c.left = ts.length + c'.left := by
  rw [left, h.rest, length_append, left]

theorem Takes.loosen (h : c.Takes true ts c') : c.Takes plain ts c' :=
  { h with plain := fun _ => h.plain rfl }

/-- Between places without new faults there is none with new faults. -/
theorem Takes.faults_eq (h : c.Takes plain ts c') (h' : c'.Takes plain us c'') (heq : c''.faults = c.faults) :
    c'.faults = c.faults ∧ c''.faults = c'.faults := by
  have hle := h.faults.length_le
  have hle' := h'.faults.length_le
  rw [heq] at hle'
  have hfaults := h.faults.eq_of_length (Nat.le_antisymm hle hle')
  exact ⟨hfaults.symm, heq.trans hfaults⟩

theorem Reads.refl (plain : Bool) (c : Cursor) : c.Reads plain [] c := ⟨[], .refl plain c, fun _ => .nil⟩

theorem Reads.trans (h : c.Reads plain ns c') (h' : c'.Reads plain ms c'') : c.Reads plain (ns ++ ms) c'' := by
  obtain ⟨ts, hts, hns⟩ := h
  obtain ⟨us, hus, hms⟩ := h'
  refine ⟨ts ++ us, hts.trans hus, fun heq => ?_⟩
  obtain ⟨hc', hc''⟩ := hts.faults_eq hus heq
  exact (hns hc').append (hms hc'')

theorem Reads.left_le (h : c.Reads plain ns c') : c'.left ≤ c.left := by
  obtain ⟨ts, hts, -⟩ := h
  have hleft := hts.left_eq
  omega

theorem Reads.loosen (h : c.Reads true ns c') : c.Reads plain ns c' := by
  obtain ⟨ts, hts, hns⟩ := h
  exact ⟨ts, hts.loosen, hns⟩

section

variable (h : c.Reads plain ns c')
include h

/-- Other nodes that come from the same tokens. -/
theorem Reads.map (hns : ∀ ts, Derives ts ns → Derives ts ms) : c.Reads plain ms c' := by
  obtain ⟨ts, hts, hderives⟩ := h
  exact ⟨ts, hts, fun heq => hns ts (hderives heq)⟩

theorem Reads.perm (hperm : ns.Perm ms) : c.Reads plain ms c' :=
  h.map fun _ hns => .perm hns hperm

theorem Reads.forget : c.Reads plain [] c' := h.map fun ts _ => .marks ts

end

/-- A token of the given kind may be taken: there is one, and it fits into the stretch. -/
def mayTake (plain : Bool) (kind : TokenKind) : Bool := if plain then !kind.isLayout else kind != .eof

theorem mayTake_of_not_layout {kind} (h : kind.isLayout = false) : mayTake plain kind = true := by
  cases plain with
  | true => simp [mayTake, h]
  | false =>
    refine bne_iff_ne.2 fun heof => ?_
    rw [heof] at h
    cases h

theorem mayTake_symbol (plain : Bool) (mark : Symbol) : mayTake plain mark = true := mayTake_of_not_layout rfl

section

variable (h : mayTake plain c.kind = true)
include h

theorem exists_cons_of_mayTake : ∃ t ts, c.rest = t :: ts ∧ c.current = t := by
  cases hrest : c.rest with
  | cons t ts => exact ⟨t, ts, rfl, by simp [current, hrest]⟩
  | nil =>
    have hkind : c.kind = .eof := by simp [kind, current, hrest]
    rw [hkind] at h
    cases plain <;> contradiction

theorem takes_advance : c.Takes plain [c.current] c.advance := by
  obtain ⟨t, ts, hrest, rfl⟩ := exists_cons_of_mayTake h
  refine ⟨by simp [advance, hrest], rfl, rfl, prefix_refl _, fun _ => .inl, fun hp => ⟨?_, rfl⟩⟩
  subst hp
  simpa [mayTake, kind] using h

theorem left_advance : c.advance.left < c.left := by
  have hleft := (takes_advance h).left_eq
  simp only [length_singleton] at hleft
  omega

end

@[simp] theorem kind_advance (c : Cursor) : c.advance.kind = c.nextKind := by
  cases hrest : c.rest with
  | nil => simp [advance, kind, current, nextKind, hrest]
  | cons t ts => cases ts <;> simp [advance, kind, current, nextKind, hrest]

theorem reads_advance (h : mayTake plain c.kind = true) : c.Reads plain [] c.advance :=
  ⟨[c.current], takes_advance h, fun _ => .marks _⟩

/-- Only words that open a definition stand between the two places. -/
def Opens (c c' : Cursor) : Prop := ∃ ts, c.rest = ts ++ c'.rest ∧ ∀ t ∈ ts, t.kind.opensDefinition = true

theorem Opens.refl (c : Cursor) : c.Opens c := ⟨[], rfl, by simp⟩

theorem Opens.advance (h : c.Opens c') (hkind : c'.kind.opensDefinition = true) : c.Opens c'.advance := by
  obtain ⟨ts, hts, hopens⟩ := h
  have hmay : mayTake false c'.kind = true := by
    cases hk : c'.kind <;> simp_all [TokenKind.opensDefinition, mayTake]
  refine ⟨ts ++ [c'.current], ?_, ?_⟩
  · rw [hts, (takes_advance hmay).rest, append_assoc]
  · simpa [or_imp, forall_and] using ⟨hopens, hkind⟩

/-- What has been read between the two places opens with the name. -/
def Names (c : Cursor) (i : Ident) (c' : Cursor) : Prop := ∃ ts, c.rest = ts ++ c'.rest ∧ OpensWith ts i

theorem Opens.names (name : String) (h : c.Opens c') (hlayout : c'.kind.isLayout = false)
    (hkind : c'.kind.opensDefinition = false) : c.Names ⟨name, c'.current.span⟩ c'.advance := by
  obtain ⟨ts, hts, hopens⟩ := h
  have hmay : mayTake true c'.kind = true := mayTake_of_not_layout hlayout
  refine ⟨ts ++ [c'.current], ?_, ts, c'.current, [], rfl, hopens, hkind, rfl⟩
  rw [hts, (takes_advance hmay).rest, append_assoc]

theorem Names.later {i} (h : c.Names i c') (hreads : c.Reads plain ns c'')
    (hle : c''.left ≤ c'.left) : c.Names i c'' := by
  obtain ⟨ts, hts, opening, t, more, rfl, hopening⟩ := h
  obtain ⟨us, hus, -⟩ := hreads
  have hsuffix : c''.rest <:+ c'.rest :=
    suffix_of_suffix_length_le (hus.rest ▸ suffix_append us _) (hts ▸ suffix_append _ _) hle
  obtain ⟨vs, hvs⟩ := hsuffix
  refine ⟨opening ++ t :: (more ++ vs), ?_, opening, t, more ++ vs, rfl, hopening⟩
  simp [hts, ← hvs]

theorem Names.opensWith {i} (h : c.Names i c') (hus : c.rest = us ++ c'.rest) : OpensWith us i := by
  obtain ⟨ts, hts, hopens⟩ := h
  obtain rfl := append_cancel_right (hts.symm.trans hus)
  exact hopens

/-! ### Nodes from what has been read -/

/-- The span from where reading began to the last token covers what has been read. -/
theorem Takes.covers (h : c.Takes plain ts c') (hlt : c'.left < c.left) (hfirst : c.kind.isLayout = false) :
    Covers ts (c.current.span.merge c'.last) := by
  cases ts with
  | nil =>
    have hleft := h.left_eq
    simp only [length_nil] at hleft
    omega
  | cons t ts =>
    have hcurrent : c.current = t := by simp [current, h.rest]
    rw [kind, hcurrent] at hfirst
    refine ⟨t, ts, rfl, hfirst, ?_⟩
    rw [h.last, hcurrent, lastSpan, foldl_cons, hfirst]
    rfl

theorem Takes.first (h : c.Takes true ts c') (hlt : c'.left < c.left) : c.kind.isLayout = false := by
  cases ts with
  | nil =>
    have hleft := h.left_eq
    simp only [length_nil] at hleft
    omega
  | cons t ts =>
    have hcurrent : c.current = t := by simp [current, h.rest]
    rw [kind, hcurrent]
    exact (h.plain rfl).1 t (mem_cons_self ..)

theorem Reads.first (h : c.Reads true ns c') (hlt : c'.left < c.left) : c.kind.isLayout = false := by
  obtain ⟨ts, hts, -⟩ := h
  exact hts.first hlt

theorem Reads.node {n} (h : c.Reads plain ns c') (hlt : c'.left < c.left)
    (hfirst : c.kind.isLayout = false) (hns : ns = n.children)
    (hspan : n.span? = some (c.current.span.merge c'.last))
    (htargets : ∀ e ∈ n.targets, e.isAssignable) (hdefined : ∀ i ∈ n.defined?, c.Names i c')
    (hwhole : n.isWhole = true) : c.Reads plain [n] c' := by
  obtain ⟨ts, hts, hderives⟩ := h
  refine ⟨ts, hts, fun heq => ?_⟩
  have hbelow : Derives ts n.children := hns ▸ hderives heq
  refine .single hbelow (hbelow.fitsTokens_whole hwhole (fun s hs => ?_) (fun i hi => ?_) htargets)
  · obtain rfl := Option.some.inj (hspan.symm.trans hs)
    exact hts.covers hlt hfirst
  · exact (hdefined i hi).opensWith hts.rest

theorem Reads.plainNode {n} (h : c.Reads true ns c') (hlt : c'.left < c.left)
    (hns : ns = n.children) (hspan : n.span? = some (c.current.span.merge c'.last))
    (htargets : n.targets = []) (hdefined : ∀ i ∈ n.defined?, c.Names i c')
    (hwhole : n.isWhole = true) : c.Reads true [n] c' :=
  h.node hlt (h.first hlt) hns hspan (by simp [htargets]) hdefined hwhole

theorem Reads.outlined {c₀ c₁ : Cursor} {as bs cs : List Node} (before : c₀.Reads plain as c)
    (header : c.Reads plain bs c₁) (hlt : c₁.left < c.left) (hfirst : c.kind.isLayout = false)
    (after : c₁.Reads plain cs c')
    (build : ∀ ts us vs, Derives ts as → Derives us bs → Derives vs cs → Covers us (c.current.span.merge c₁.last) →
      c.rest = us ++ c₁.rest → Derives (ts ++ us ++ vs) ns) : c₀.Reads plain ns c' := by
  obtain ⟨ts, hts, has⟩ := before
  obtain ⟨us, hus, hbs⟩ := header
  obtain ⟨vs, hvs, hcs⟩ := after
  refine ⟨ts ++ us ++ vs, (hts.trans hus).trans hvs, fun heq => ?_⟩
  obtain ⟨heq, heq_vs⟩ := (hts.trans hus).faults_eq hvs heq
  obtain ⟨heq_ts, heq_us⟩ := hts.faults_eq hus heq
  exact build ts us vs (has heq_ts) (hbs heq_us) (hcs heq_vs) (hus.covers hlt hfirst) hus.rest

/-- A node whose span is that of its header. -/
theorem Reads.headed {n : Node} {c₀ c₁ : Cursor} (before : c₀.Reads plain n.leading c)
    (header : c.Reads plain n.header c₁) (hlt : c₁.left < c.left) (hfirst : c.kind.isLayout = false)
    (after : c₁.Reads plain n.trailing c') (hns : (n.leading ++ n.header ++ n.trailing).Perm n.children)
    (hspan : n.span? = some (c.current.span.merge c₁.last)) (hheaded : n.isHeaded = true) (htargets : n.targets = [])
    (hdefined : ∀ i ∈ n.defined?, c.Names i c₁) : c₀.Reads plain [n] c' := by
  refine before.outlined header hlt hfirst after fun ts us vs has hbs hcs hcovers hrest => ?_
  refine .single (.perm ((has.append hbs).append hcs) hns) ?_
  refine has.fitsTokens_parts hbs hcs (List.Subset.refl _) (List.Subset.refl _) (List.Subset.refl _) hspan hcovers
    hheaded (fun i hi => ?_) htargets
  exact (hdefined i hi).opensWith hrest

/-- A statement that defines something, over its definition. Both have the span of the header. -/
theorem Reads.definition {n d : Node} {c₀ c₁ : Cursor} (hd : n.Defines d) (before : c₀.Reads plain n.leading c)
    (header : c.Reads plain n.header c₁) (hlt : c₁.left < c.left) (hfirst : c.kind.isLayout = false)
    (after : c₁.Reads plain n.trailing c') (hspan : n.span? = some (c.current.span.merge c₁.last))
    (hdefined : ∀ i ∈ d.defined?, c.Names i c₁) : c₀.Reads plain [n] c' := by
  refine before.outlined header hlt hfirst after fun ts us vs has hbs hcs hcovers hrest => ?_
  have hbelow : Derives (ts ++ us ++ vs) [d] := by
    refine .single (.perm ((has.append hbs).append hcs) hd.perm) ?_
    refine has.fitsTokens_parts hbs hcs ?_ ?_ ?_ (hd.span ▸ hspan) hcovers (by cases hd <;> rfl) (fun i hi => ?_)
      (by cases hd <;> rfl)
    · cases hd <;> exact nil_subset _
    · cases hd <;> exact List.Subset.refl _
    · cases hd <;> exact nil_subset _
    · exact (hdefined i hi).opensWith hrest
  refine .single (hd.children ▸ hbelow) ?_
  exact has.fitsTokens_parts hbs hcs (List.Subset.refl _) (List.Subset.refl _) (List.Subset.refl _) hspan hcovers
    (by cases hd <;> rfl) (by cases hd <;> nofun) (by cases hd <;> rfl)

theorem Reads.bareNode {n} (h : c.Reads plain ns c') (hns : ns = n.children)
    (hspan : n.span? = none) (htargets : ∀ e ∈ n.targets, e.isAssignable) : c.Reads plain [n] c' :=
  h.map fun _ hderives => .single (hns ▸ hderives) ⟨by simp [hspan], htargets⟩

theorem reads_token {n} (h : mayTake true c.kind = true) (hchildren : n.children = [])
    (hspan : n.span? = some c.current.span) (htargets : n.targets = [])
    (hdefined : ∀ i ∈ n.defined?, c.Names i c.advance) (hwhole : n.isWhole = true) :
    c.Reads true [n] c.advance := by
  refine (reads_advance h).plainNode (left_advance h) hchildren.symm ?_ htargets hdefined hwhole
  have hlast : c.advance.last = c.current.span := by
    have hlayout : c.kind.isLayout = false := by simpa [mayTake] using h
    simp [advance, hlayout]
  rw [hlast, Span.merge_self, hspan]

end Cursor

/-! ### Outcomes -/

section

variable {α β : Type} {plain : Bool} {c₀ c c' : Cursor} {ns : List Node} {kind : TokenKind} {what : String} {a : α}
  {x : Rule α} {rule : Rule β} {Q : α → Cursor → Prop}

/-- What holds after the rule, when reading began at `c₀` and has come to `c`. -/
def Meets (plain : Bool) (c₀ : Cursor) (rule : Rule α) (c : Cursor) (Q : α → Cursor → Prop) : Prop :=
  match rule c with
  | .ok a c' => Q a c'
  | .error (.fault d) c' => c₀.Reads plain [] c' ∧ d.IsFault
  | .error .exhausted _ => False

theorem run_bind_ok {f : α → Rule β} (h : x c = .ok a c') : (x >>= f) c = f a c' := by
  show EStateM.bind x f c = f a c'
  delta EStateM.bind
  rw [h]

theorem run_bind_error {f : α → Rule β} {e : Failure} (h : x c = .error e c') : (x >>= f) c = .error e c' := by
  show EStateM.bind x f c = .error e c'
  delta EStateM.bind
  rw [h]

theorem run_get_bind {f : Cursor → Rule α} : (get >>= f) c = f c c := rfl

theorem run_discard_ok (h : x c = .ok a c') : discard x c = .ok () c' := by
  show EStateM.map (fun _ => ()) x c = .ok () c'
  delta EStateM.map
  rw [h]

theorem run_discard_error {e} (h : x c = .error e c') : discard x c = .error e c' := by
  show EStateM.map (fun _ => ()) x c = .error e c'
  delta EStateM.map
  rw [h]

theorem meets_of_eq {y} (heq : x c = y c') (h : Meets plain c₀ y c' Q) : Meets plain c₀ x c Q := by
  unfold Meets
  rw [heq]
  exact h

theorem meets_of_ok (heq : x c = .ok a c') (h : Q a c') : Meets plain c₀ x c Q := by
  unfold Meets
  rw [heq]
  exact h

theorem meets_of_fault {d} (heq : x c = .error (.fault d) c') (h : c₀.Reads plain ns c')
    (hd : d.IsFault) : Meets plain c₀ x c Q := by
  unfold Meets
  rw [heq]
  exact ⟨h.forget, hd⟩

theorem Meets.cases (h : Meets plain c₀ x c Q) :
    (∃ a c', x c = .ok a c' ∧ Q a c') ∨ ∃ d c', x c = .error (.fault d) c' ∧ c₀.Reads plain [] c' ∧ d.IsFault := by
  unfold Meets at h
  cases hx : x c with
  | ok a c' =>
    rw [hx] at h
    exact .inl ⟨a, c', rfl, h⟩
  | error e c' =>
    rw [hx] at h
    cases e with
    | fault d => exact .inr ⟨d, c', rfl, h⟩
    | exhausted => exact h.elim

theorem Meets.bind {f : α → Rule β} {P : α → Cursor → Prop} {Q : β → Cursor → Prop} (hx : Meets plain c₀ x c P)
    (hf : ∀ a c', P a c' → Meets plain c₀ (f a) c' Q) : Meets plain c₀ (x >>= f) c Q := by
  rcases hx.cases with ⟨a, c', hx, hP⟩ | ⟨d, c', hx, hreads, hd⟩
  · exact meets_of_eq (run_bind_ok hx) (hf a c' hP)
  · exact meets_of_fault (run_bind_error hx) hreads hd

theorem Meets.mono {P} (hx : Meets plain c₀ x c P) (h : ∀ a c', P a c' → Q a c') :
    Meets plain c₀ x c Q := by
  rcases hx.cases with ⟨a, c', hx, hP⟩ | ⟨d, c', hx, hreads, hd⟩
  · exact meets_of_ok hx (h a c' hP)
  · exact meets_of_fault hx hreads hd

theorem Meets.within (hx : Meets plain c x c Q) (h : c₀.Reads plain ns c) : Meets plain c₀ x c Q := by
  rcases hx.cases with ⟨a, c', hx, hQ⟩ | ⟨d, c', hx, hreads, hd⟩
  · exact meets_of_ok hx hQ
  · exact meets_of_fault hx (h.trans hreads) hd

theorem Meets.loosen (hx : Meets true c₀ x c Q) : Meets plain c₀ x c Q := by
  rcases hx.cases with ⟨a, c', hx, hQ⟩ | ⟨d, c', hx, hreads, hd⟩
  · exact meets_of_ok hx hQ
  · exact meets_of_fault hx hreads.loosen hd

/-! ### Small steps -/

theorem meets_pure (h : Q a c) : Meets plain c₀ (pure a) c Q := h

theorem meets_pure_bind {a : β} {f : β → Rule α} (h : Meets plain c₀ (f a) c Q) :
    Meets plain c₀ (pure a >>= f) c Q := h

theorem meets_ite {p : Prop} [Decidable p] {y} (yes : p → Meets plain c₀ x c Q)
    (no : ¬p → Meets plain c₀ y c Q) : Meets plain c₀ (if p then x else y) c Q := by
  by_cases h : p
  · rw [if_pos h]
    exact yes h
  · rw [if_neg h]
    exact no h

theorem meets_fail {code message span} (h : c₀.Reads plain ns c)
    (hcode : (Diagnostic.error code message span).IsFault) :
    Meets plain c₀ (fail code message span) c Q :=
  ⟨h.forget, hcode⟩

theorem run_unexpected (what : String) (c : Cursor) :
    ∃ d : Diagnostic, unexpected (α := α) what c = .error (.fault d) c ∧ d.IsFault := by
  refine ⟨_, rfl, ?_⟩
  by_cases heof : c.current.kind = .eof <;> simp [Diagnostic.IsFault, Diagnostic.error, heof]

theorem meets_unexpected (h : c₀.Reads plain ns c) : Meets plain c₀ (unexpected what) c Q := by
  obtain ⟨d, heq, hd⟩ := run_unexpected (α := α) what c
  exact meets_of_fault heq h hd

theorem meets_here {f} (h : Meets plain c₀ (f c.current.span) c Q) :
    Meets plain c₀ (here >>= f) c Q := h

theorem meets_finish {f start} (h : Meets plain c₀ (f (start.merge c.last)) c Q) :
    Meets plain c₀ (finish start >>= f) c Q := h

theorem meets_get {f} (h : Meets plain c₀ (f c) c Q) : Meets plain c₀ (get >>= f) c Q := h

theorem meets_peek {f} (h : Meets plain c₀ (f c.kind) c Q) : Meets plain c₀ (peek >>= f) c Q := h

theorem meets_peekNext {f} (h : Meets plain c₀ (f c.nextKind) c Q) :
    Meets plain c₀ (peekNext >>= f) c Q := h

theorem meets_check {f} (yes : c.kind = kind → Meets plain c₀ (f true) c Q)
    (no : c.kind ≠ kind → Meets plain c₀ (f false) c Q) :
    Meets plain c₀ (check kind >>= f) c Q := by
  show Meets plain c₀ (f (c.kind == kind)) c Q
  by_cases h : c.kind = kind
  · rw [beq_iff_eq.2 h]
    exact yes h
  · rw [beq_eq_false_iff_ne.2 h]
    exact no h

theorem meets_take {f} (h : Meets plain c₀ (f c.current) c.advance Q) :
    Meets plain c₀ (advance >>= f) c Q := h

theorem meets_advance {f} (h : c₀.Reads plain ns c) (hkind : Cursor.mayTake plain c.kind = true)
    (next : c₀.Reads plain ns c.advance → c.advance.left < c.left → Meets plain c₀ (f ()) c.advance Q) :
    Meets plain c₀ (discard advance >>= f) c Q := by
  have hreads := h.trans (Cursor.reads_advance hkind)
  rw [append_nil] at hreads
  exact next hreads (Cursor.left_advance hkind)

theorem run_eat (h : c.kind = kind) : eat kind c = .ok true c.advance := by
  show (if (c.kind == kind) = true then _ else _ : Rule Bool) c = _
  rw [if_pos (beq_iff_eq.2 h)]
  rfl

theorem run_eat_of_ne (h : c.kind ≠ kind) : eat kind c = .ok false c := by
  show (if (c.kind == kind) = true then _ else _ : Rule Bool) c = _
  rw [if_neg (by simpa using h)]
  rfl

theorem meets_eat {f : Bool → Rule α} (h : c₀.Reads plain ns c) (hkind : Cursor.mayTake plain kind = true)
    (yes : ∀ c', c.kind = kind → c₀.Reads plain ns c' → c'.left < c.left → Meets plain c₀ (f true) c' Q)
    (no : c.kind ≠ kind → Meets plain c₀ (f false) c Q) : Meets plain c₀ (eat kind >>= f) c Q := by
  by_cases hc : c.kind = kind
  · refine meets_of_eq (run_bind_ok (run_eat hc)) ?_
    rw [← hc] at hkind
    exact meets_advance (f := fun _ => f true) h hkind (yes c.advance hc)
  · exact meets_of_eq (run_bind_ok (run_eat_of_ne hc)) (no hc)

theorem run_expect (h : c.kind = kind) : expect kind what c = .ok c.current c.advance := by
  show (if (c.kind == kind) = true then _ else _ : Rule Token) c = _
  rw [if_pos (beq_iff_eq.2 h)]
  rfl

theorem meets_demand {f : Unit → Rule α} (h : c₀.Reads plain ns c) (hkind : Cursor.mayTake plain kind = true)
    (next : c.kind = kind → c₀.Reads plain ns c.advance → c.advance.left < c.left → Meets plain c₀ (f ()) c.advance Q) :
    Meets plain c₀ (discard (expect kind what) >>= f) c Q := by
  by_cases hc : c.kind = kind
  · refine meets_of_eq (run_bind_ok (run_discard_ok (run_expect hc))) ?_
    rw [← hc] at hkind
    exact meets_advance h hkind (next hc)
  · have hexpect : expect kind what c = unexpected what c := by
      show (if (c.kind == kind) = true then _ else _ : Rule Token) c = _
      rw [if_neg (by simpa using hc)]
    obtain ⟨d, heq, hd⟩ := run_unexpected (α := Token) what c
    exact meets_of_fault (run_bind_error (run_discard_error (hexpect.trans heq))) h hd

theorem meets_expect {f} (h : c₀.Reads plain ns c) (hkind : Cursor.mayTake plain kind = true)
    (next : ∀ c', c.kind = kind → c₀.Reads plain ns c' → c'.left < c.left → Meets plain c₀ (f ()) c' Q) :
    Meets plain c₀ (discard (expect kind what) >>= f) c Q :=
  meets_demand h hkind (next c.advance)

theorem run_identifier {name : String} (h : c.kind = .ident name) :
    identifier c = .ok ⟨name, c.current.span⟩ c.advance := by
  have hpeek : peek c = .ok c.kind c := rfl
  rw [identifier, run_bind_ok hpeek, h]
  rfl

section

variable (h : c₀.Reads plain ns c)
include h

/-- A name, where its token is told. -/
theorem meets_name {f : Ident → Rule α}
    (next : ∀ name, c.kind = .ident name → c₀.Reads plain (ns ++ [.ident ⟨name, c.current.span⟩]) c.advance → c.advance.left < c.left → Meets plain c₀ (f ⟨name, c.current.span⟩) c.advance Q) :
    Meets plain c₀ (identifier >>= f) c Q := by
  have hpeek : peek c = .ok c.kind c := rfl
  cases hkind : c.kind with
  | ident name =>
    have hmay : Cursor.mayTake true c.kind = true := by rw [hkind]; rfl
    have hread : c.Reads true [.ident ⟨name, c.current.span⟩] c.advance :=
      Cursor.reads_token hmay rfl rfl rfl nofun rfl
    have hnext := next name hkind (h.trans hread.loosen) (Cursor.left_advance hmay)
    exact meets_of_eq (run_bind_ok (run_identifier hkind)) hnext
  | _ =>
    have hident : identifier c = unexpected "identifier" c := by
      rw [identifier, run_bind_ok hpeek, hkind]
    obtain ⟨d, heq, hd⟩ := run_unexpected (α := Ident) "identifier" c
    exact meets_of_fault (run_bind_error (hident.trans heq)) h hd

theorem meets_identifier {f}
    (next : ∀ i, c₀.Reads plain (ns ++ [.ident i]) c.advance → c.advance.left < c.left → Meets plain c₀ (f i) c.advance Q) :
    Meets plain c₀ (identifier >>= f) c Q :=
  meets_name h fun _ _ => next _

theorem meets_checkTarget {f : Unit → Rule α} {target : Expr} (next : target.isAssignable → Meets plain c₀ (f ()) c Q) :
    Meets plain c₀ (checkTarget target >>= f) c Q := by
  cases htarget : target.isAssignable with
  | true =>
    have hcheck : checkTarget target c = .ok () c := by
      rw [checkTarget, htarget]
      rfl
    exact meets_of_eq (run_bind_ok hcheck) (next htarget)
  | false =>
    have hcheck : checkTarget target c =
        fail Diagnostic.Code.invalidTarget "Cannot assign to expression" target.span c := by
      rw [checkTarget, htarget]
      rfl
    exact meets_of_fault (run_bind_error hcheck) h (by simp [Diagnostic.IsFault, Diagnostic.error])

end

/-! ### Readers -/

/-- From places with fewer tokens than the bound, the rule reads its nodes and takes a token. -/
def Reader (plain : Bool) (nodes : α → List Node) (bound : Nat) (rule : Rule α) : Prop :=
  ∀ c, c.left < bound → Meets plain c rule c fun a c' => c.Reads plain (nodes a) c' ∧ c'.left < c.left

/-- The same for a rule that may give nothing. -/
def MaybeReader (plain : Bool) (nodes : α → List Node) (bound : Nat) (rule : Rule (Option α)) : Prop :=
  ∀ c, c.left < bound → Meets plain c rule c fun o c' =>
    c.Reads plain (o.toList.flatMap nodes) c' ∧ (o.isSome → c'.left < c.left)

/-- From this place the rule reads the nodes of what it gives; it may take no token. -/
def ReadsAt (plain : Bool) (nodes : α → List Node) (c : Cursor) (rule : Rule α) : Prop :=
  Meets plain c rule c fun a c' => c.Reads plain (nodes a) c'

variable {nodes : β → List Node} {bound : Nat}

theorem ReadsAt.loosen (h : ReadsAt true nodes c rule) : ReadsAt plain nodes c rule :=
  Meets.mono (Meets.loosen h) fun _ _ hreads => hreads.loosen

theorem ReadsAt.bind {f : β → Rule α} (hrule : ReadsAt plain nodes c rule) (h : c₀.Reads plain ns c)
    (next : ∀ a c', c₀.Reads plain (ns ++ nodes a) c' → c'.left ≤ c.left → Meets plain c₀ (f a) c' Q) :
    Meets plain c₀ (rule >>= f) c Q :=
  (Meets.within hrule h).bind fun a c' hreads => next a c' (h.trans hreads) hreads.left_le

theorem Reader.loosen (h : Reader true nodes bound rule) : Reader plain nodes bound rule :=
  fun c hc => (h c hc).loosen.mono fun _ _ ⟨hreads, hlt⟩ => ⟨hreads.loosen, hlt⟩

theorem reader_identifier (bound : Nat) : Reader plain (fun i => [.ident i]) bound identifier := by
  intro c _
  have h : Meets plain c (identifier >>= pure) c fun i c' => c.Reads plain [.ident i] c' ∧ c'.left < c.left :=
    meets_identifier (.refl plain c) fun i h hlt => meets_pure ⟨h, hlt⟩
  rwa [bind_pure] at h

/-- A reader, and what comes after it. -/
theorem Reader.bind {f : β → Rule α} (hrule : Reader plain nodes bound rule) (h : c₀.Reads plain ns c)
    (hlt : c.left < bound)
    (next : ∀ a c', c₀.Reads plain (ns ++ nodes a) c' → c'.left < c.left → Meets plain c₀ (f a) c' Q) :
    Meets plain c₀ (rule >>= f) c Q :=
  ((hrule c hlt).within h).bind fun a c' ⟨hreads, hlt⟩ => next a c' (h.trans hreads) hlt

/-- The same where nothing comes after it. -/
theorem Reader.after (hrule : Reader plain nodes bound rule) (h : c₀.Reads plain ns c) (hlt : c.left < bound) :
    Meets plain c₀ rule c fun a c' => c₀.Reads plain (ns ++ nodes a) c' ∧ c'.left < c.left :=
  ((hrule c hlt).within h).mono fun _ _ ⟨hreads, hlt⟩ => ⟨h.trans hreads, hlt⟩

theorem MaybeReader.bind {rule : Rule (Option β)} {f : Option β → Rule α} (hrule : MaybeReader plain nodes bound rule)
    (h : c₀.Reads plain ns c) (hlt : c.left < bound)
    (next : ∀ o c', c₀.Reads plain (ns ++ o.toList.flatMap nodes) c' → c'.left ≤ c.left → Meets plain c₀ (f o) c' Q) :
    Meets plain c₀ (rule >>= f) c Q :=
  ((hrule c hlt).within h).bind fun o c' ⟨hreads, _⟩ => next o c' (h.trans hreads) hreads.left_le

/-- The rule only tells something. -/
def Looks (rule : Rule Bool) : Prop := ∀ c, ∃ b, rule c = .ok b c

theorem looks_check (kind : TokenKind) : Looks (check kind) := fun _ => ⟨_, rfl⟩

theorem Looks.not {rule : Rule Bool} (h : Looks rule) : Looks (do return !(← rule)) := by
  intro c
  obtain ⟨b, hb⟩ := h c
  exact ⟨!b, run_bind_ok hb⟩

theorem meets_look {rule : Rule Bool} {f : Bool → Rule α} (hrule : Looks rule)
    (next : ∀ b, rule c = .ok b c → Meets plain c₀ (f b) c Q) : Meets plain c₀ (rule >>= f) c Q := by
  obtain ⟨b, hb⟩ := hrule c
  exact meets_of_eq (run_bind_ok hb) (next b hb)

/-- The rule only tells something, but when it says yes it may take a mark. -/
def Asks (plain : Bool) (rule : Rule Bool) : Prop :=
  ∀ c, ∃ b c', rule c = .ok b c' ∧ c.Reads plain [] c' ∧ (b = false → c' = c)

theorem Looks.asks {rule} (h : Looks rule) : Asks plain rule := by
  intro c
  obtain ⟨b, hb⟩ := h c
  exact ⟨b, c, hb, .refl plain c, fun _ => rfl⟩

theorem asks_eat (kind : TokenKind) (hkind : Cursor.mayTake plain kind = true) : Asks plain (eat kind) := by
  intro c
  by_cases hc : c.kind = kind
  · exact ⟨true, c.advance, run_eat hc, Cursor.reads_advance (hc ▸ hkind), by simp⟩
  · exact ⟨false, c, run_eat_of_ne hc, .refl plain c, fun _ => rfl⟩

/-- A word that may open a definition. -/
theorem opens_eat (plain : Bool) (c : Cursor) (word : Keyword) (hword : (word : TokenKind).opensDefinition = true) :
    ∃ b c', eat word c = .ok b c' ∧ c.Reads plain [] c' ∧ c.Opens c' := by
  by_cases hc : c.kind = word
  · exact ⟨true, c.advance, run_eat hc, Cursor.reads_advance (hc ▸ Cursor.mayTake_of_not_layout rfl),
      (Cursor.Opens.refl c).advance (hc ▸ hword)⟩
  · exact ⟨false, c, run_eat_of_ne hc, .refl plain c, .refl c⟩

theorem asks_eat_if (b : Bool) (kind : TokenKind) (hkind : Cursor.mayTake plain kind = true) :
    Asks plain (if b then eat kind else return false) := by
  cases b with
  | true => exact asks_eat kind hkind
  | false => exact Looks.asks fun _ => ⟨_, rfl⟩

/-- A question, and what comes after it. -/
theorem Asks.bind {rule : Rule Bool} {f : Bool → Rule α} (hrule : Asks plain rule) (h : c₀.Reads plain ns c)
    (next : ∀ b c', c₀.Reads plain ns c' → c'.left ≤ c.left → Meets plain c₀ (f b) c' Q) :
    Meets plain c₀ (rule >>= f) c Q := by
  obtain ⟨b, c', heq, hreads, -⟩ := hrule c
  have hreads' := h.trans hreads
  rw [append_nil] at hreads'
  exact meets_of_eq (run_bind_ok heq) (next b c' hreads' hreads.left_le)

theorem Asks.discard_bind {rule : Rule Bool} {f : Unit → Rule α} (hrule : Asks plain rule) (h : c₀.Reads plain ns c)
    (next : ∀ c', c₀.Reads plain ns c' → c'.left ≤ c.left → Meets plain c₀ (f ()) c' Q) :
    Meets plain c₀ (discard rule >>= f) c Q := by
  obtain ⟨b, c', heq, hreads, -⟩ := hrule c
  have hreads' := h.trans hreads
  rw [append_nil] at hreads'
  exact meets_of_eq (run_bind_ok (run_discard_ok heq)) (next c' hreads' hreads.left_le)

theorem meets_optional {condition : Rule Bool} {P : β → Cursor → Prop} (hcondition : Asks plain condition)
    (h : c₀.Reads plain ns c) (hrule : ∀ c', c₀.Reads plain ns c' → c'.left ≤ c.left → Meets plain c₀ rule c' P) :
    Meets plain c₀ (optional condition rule) c fun o c' => o.elim (c' = c) fun a => P a c' := by
  obtain ⟨b, c', heq, hreads, hno⟩ := hcondition c
  refine meets_of_eq (run_bind_ok heq) ?_
  cases b with
  | false => exact meets_pure (hno rfl)
  | true =>
    have hreads' := h.trans hreads
    rw [append_nil] at hreads'
    exact (hrule c' hreads' hreads.left_le).bind fun a c'' ha => meets_pure ha

theorem maybeReader_optional {condition} (hcondition : Asks plain condition)
    (hrule : Reader plain nodes bound rule) :
    MaybeReader plain nodes bound (optional condition rule) := by
  intro c hc
  have hone {c' : Cursor} (h : c.Reads plain [] c') (hle : c'.left ≤ c.left) :
      Meets plain c rule c' fun a c'' => c.Reads plain (nodes a) c'' ∧ c''.left < c.left :=
    (hrule.after h (by omega)).mono fun a c'' ⟨hreads, hlt⟩ => ⟨hreads, by omega⟩
  refine (meets_optional hcondition (.refl plain c) fun c' => hone).mono fun o c' ho => ?_
  cases o with
  | none =>
    obtain rfl : c' = c := ho
    exact ⟨.refl plain c', by simp⟩
  | some a =>
    obtain ⟨hreads, hlt⟩ := ho
    exact ⟨by simpa using hreads, fun _ => hlt⟩

/-! ### Repetition -/

theorem meets_iterate {step : α → Rule (Option α)}
    (hstep : ∀ a c, Q a c → Meets plain c₀ (step a) c fun o c' => o.elim (Q a c') fun b => Q b c' ∧ c'.left < c.left)
    {rounds : Nat} (h : Q a c) (hlt : c.left < rounds) : Meets plain c₀ (iterate step rounds a) c Q := by
  induction rounds generalizing a c with
  | zero => exact absurd hlt (Nat.not_lt_zero _)
  | succ rounds ih =>
    refine (hstep a c h).bind fun o c' ho => ?_
    cases o with
    | none => exact meets_pure ho
    | some b =>
      obtain ⟨hb, hlt'⟩ := ho
      exact ih hb (by omega)

theorem readsAt_many {rule : Rule (Option β)} (hrule : MaybeReader plain nodes bound rule) {rounds : Nat}
    (hbound : c.left < bound) (hrounds : c.left < rounds) :
    ReadsAt plain (fun as => as.flatMap nodes) c (many rule rounds) := by
  induction rounds generalizing c with
  | zero => exact absurd hrounds (Nat.not_lt_zero _)
  | succ rounds ih =>
    refine (hrule c hbound).bind fun o c₁ ⟨hreads, hlt⟩ => ?_
    cases o with
    | none => exact meets_pure hreads
    | some a =>
      have hlt := hlt rfl
      refine (ih (by omega) (by omega)).bind hreads fun as c₂ hreads _ => ?_
      exact meets_pure (by simpa using hreads)

/-- An item after a comma, unless the comma ends the list. -/
theorem maybeReader_commaItem {atEnd item} (hend : Looks atEnd)
    (hitem : Reader plain nodes bound item) :
    MaybeReader plain nodes bound (do
      unless ← eat Symbol.comma do return none
      if ← atEnd then return none
      return some (← item)) := by
  intro c hc
  have hcomma := Cursor.mayTake_symbol plain .comma
  refine meets_eat (.refl plain c) hcomma (fun c₁ _ hreads hlt => ?_) fun _ => meets_pure ⟨.refl plain c, by simp⟩
  refine meets_look hend fun b _ => ?_
  cases b with
  | true => exact meets_pure ⟨hreads, by simp⟩
  | false =>
    refine hitem.bind hreads (by omega) fun a c₂ hreads' hlt' => ?_
    exact meets_pure ⟨by simpa using hreads', fun _ => by omega⟩

theorem readsAt_commaList {atEnd item rounds} (hend : Looks atEnd)
    (hitem : Reader plain nodes bound item) (hbound : c.left < bound) (hrounds : c.left < rounds) :
    ReadsAt plain (fun as => as.flatMap nodes) c (commaList rounds atEnd item) :=
  readsAt_many (maybeReader_commaItem hend hitem) hbound hrounds

theorem readsAt_separated {atEnd item rounds} (hend : Looks atEnd)
    (hitem : Reader plain nodes bound item) (hbound : c.left < bound) (hrounds : c.left < rounds) :
    ReadsAt plain (fun as => as.flatMap nodes) c (separated atEnd item rounds) := by
  induction rounds generalizing c with
  | zero => exact absurd hrounds (Nat.not_lt_zero _)
  | succ rounds ih =>
    refine meets_look hend fun b _ => ?_
    cases b with
    | true => exact meets_pure (.refl plain c)
    | false =>
      refine hitem.bind (.refl plain c) hbound fun a c₁ hreads hlt => ?_
      have hcomma := Cursor.mayTake_symbol plain .comma
      refine meets_eat hreads hcomma (fun c₂ _ hreads hlt' => ?_) fun _ => meets_pure (by simpa using hreads)
      refine (ih (by omega) (by omega)).bind hreads fun as c₃ hreads _ => ?_
      exact meets_pure (by simpa using hreads)

end

end Grammar

end TypeInfer
