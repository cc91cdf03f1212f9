/-
How the spans of a tree lie to one another. The span of a node covers a stretch of tokens, in which
stand all nodes of its header (`Node.StandIn`). Nodes below one node come from stretches of their
own, so what lies below two of them does not overlap.
-/
import TypeInfer.Proofs.DistinctSpans

namespace TypeInfer

open List
open Token (words words_append words_cons_of_word)

variable {ts : List Token} {s : Span} {ns : List Node}

namespace Span

/-- The bytes of the one are among those of the other. -/
def Inside (a b : Span) : Prop := b.start ≤ a.start ∧ a.stop ≤ b.stop

/-- The one ends before the other starts. -/
def Precedes (a b : Span) : Prop := a.stop ≤ b.start

end Span

namespace Node

/-- The spans of a node and of all that stands below it. -/
def spans (n : Node) : List Span := n.tree.filterMap span?

/-- No byte is both in a span of the one and in a span of the other. -/
def Apart (a b : Node) : Prop := ∀ s ∈ a.spans, ∀ s' ∈ b.spans, s.Precedes s' ∨ s'.Precedes s

theorem Apart.symm {a b : Node} (h : a.Apart b) : b.Apart a := fun s hs s' hs' => (h s' hs' s hs).symm

theorem mem_spans {n : Node} {s : Span} : s ∈ n.spans ↔ ∃ m ∈ n.tree, s ∈ m.span? := mem_filterMap

end Node

/-! ### Tokens in order -/

/-- The tokens follow one another. -/
structure InOrder (ts : List Token) : Prop where
  ordered : (words ts).Pairwise fun a b => a.span.stop ≤ b.span.start
  proper : ∀ t ∈ words ts, t.span.start ≤ t.span.stop

theorem InOrder.of_append {us : List Token} (h : InOrder (ts ++ us)) :
    InOrder ts ∧ InOrder us ∧ ∀ t ∈ words ts, ∀ u ∈ words us, t.span.stop ≤ u.span.start := by
  obtain ⟨hordered, hproper⟩ := h
  rw [words_append] at hordered hproper
  obtain ⟨hts, hus, hacross⟩ := pairwise_append.1 hordered
  obtain ⟨hts', hus'⟩ := forall_mem_append.1 hproper
  exact ⟨⟨hts, hts'⟩, ⟨hus, hus'⟩, hacross⟩

theorem inOrder_of_tokenize {source : Source} {tokens : List Token} (h : Token.tokenize source = .ok tokens) :
    InOrder tokens := by
  obtain ⟨hspelled, hordered⟩ := Token.words_of_tokenize h
  exact ⟨hordered, fun t ht => Nat.le_of_lt (hspelled t ht).in_bounds.1⟩

theorem Covers.exists_bounds (h : Covers ts s) (hts : InOrder ts) :
    (∃ first ∈ words ts, s.start = first.span.start) ∧ (∃ last ∈ words ts, s.stop = last.span.stop) ∧
      ∀ t ∈ words ts, s.start ≤ t.span.start ∧ t.span.stop ≤ s.stop := by
  obtain ⟨first, rest, rfl, hfirst, rfl⟩ := h
  have hwords := words_cons_of_word hfirst rest
  obtain ⟨init, last, hconcat, hlast⟩ := exists_words_concat first rest
  obtain ⟨hordered, hproper⟩ := hts
  have hstarts : ∀ t ∈ words (first :: rest), first.span.start ≤ t.span.start := by
    intro t ht
    have hle := hproper first (by simp [hwords])
    rw [hwords] at ht hordered
    rcases mem_cons.1 ht with rfl | ht
    · exact Nat.le_refl _
    · exact Nat.le_trans hle (rel_of_pairwise_cons hordered ht)
  have hstops : ∀ t ∈ words (first :: rest), t.span.stop ≤ last.span.stop := by
    intro t ht
    have hle := hproper last (by simp [hwords, hconcat])
    rw [hwords, hconcat] at ht hordered
    rcases mem_append.1 ht with ht | ht
    · exact Nat.le_trans ((pairwise_append.1 hordered).2.2 t ht last (by simp)) hle
    · exact Nat.le_of_eq (by rw [mem_singleton.1 ht])
  have hfirst' : first ∈ words (first :: rest) := by simp [hwords]
  have hlast' : last ∈ words (first :: rest) := by simp [hwords, hconcat]
  have hstart : (first.span.merge (lastSpan first.span rest)).start = first.span.start := by
    rw [hlast]
    exact Nat.min_eq_left (hstarts last hlast')
  have hstop : (first.span.merge (lastSpan first.span rest)).stop = last.span.stop := by
    rw [hlast]
    exact Nat.max_eq_right (hstops first hfirst')
  rw [hstart, hstop]
  exact ⟨⟨first, hfirst', rfl⟩, ⟨last, hlast', rfl⟩, fun t ht => ⟨hstarts t ht, hstops t ht⟩⟩

theorem Node.StandIn.exists_bounds {n : Node} (h : StandIn ns ts) (hts : InOrder ts) (hn : n ∈ ns)
    (hs : s ∈ n.spans) :
    (∃ first ∈ words ts, s.start = first.span.start) ∧ ∃ last ∈ words ts, s.stop = last.span.stop := by
  obtain ⟨m, hm, hs⟩ := mem_spans.1 hs
  obtain ⟨before, own, after, rfl, hcovers⟩ := h n hn m hm s hs
  obtain ⟨⟨first, hfirst, hstart⟩, ⟨last, hlast, hstop⟩, -⟩ := hcovers.exists_bounds hts.of_append.1.of_append.2.1
  have hwords : ∀ t ∈ words own, t ∈ words (before ++ own ++ after) := by
    intro t ht
    simp [words_append, ht]
  exact ⟨⟨first, hwords first hfirst, hstart⟩, last, hwords last hlast, hstop⟩

/-! ### Containment -/

/-- The header of a node lies inside its span, and the rest outside. -/
structure Node.Nests (n : Node) (s : Span) : Prop where
  proper : s.start ≤ s.stop
  header : ∀ c ∈ n.header, ∀ s' ∈ c.spans, s'.Inside s
  leading : ∀ c ∈ n.leading, ∀ s' ∈ c.spans, s'.Precedes s
  trailing : ∀ c ∈ n.trailing, ∀ s' ∈ c.spans, s.Precedes s'

theorem Node.FitsTokens.nests {n : Node} (h : n.FitsTokens ts) (hts : InOrder ts) (hs : s ∈ n.span?) :
    n.Nests s := by
  obtain ⟨before, own, after, rfl, hcovers, -, -, hleading, hheader, htrailing⟩ := h.span s hs
  obtain ⟨horder, hafter, hacross⟩ := hts.of_append
  obtain ⟨hbefore, hown, hacross'⟩ := horder.of_append
  obtain ⟨⟨first, hfirst, hstart⟩, ⟨last, hlast, hstop⟩, hbetween⟩ := hcovers.exists_bounds hown
  refine ⟨?_, fun c hc s' hs' => ?_, fun c hc s' hs' => ?_, fun c hc s' hs' => ?_⟩
  · have hle := hown.proper first hfirst
    have hle' := (hbetween first hfirst).2
    omega
  · obtain ⟨⟨first', hfirst', hstart'⟩, last', hlast', hstop'⟩ := hheader.exists_bounds hown hc hs'
    have hle := (hbetween first' hfirst').1
    have hle' := (hbetween last' hlast').2
    exact ⟨by omega, by omega⟩
  · obtain ⟨-, last', hlast', hstop'⟩ := hleading.exists_bounds hbefore hc hs'
    have hle := hacross' last' hlast' first hfirst
    rwa [Span.Precedes, hstop', hstart]
  · obtain ⟨⟨first', hfirst', hstart'⟩, -⟩ := htrailing.exists_bounds hafter hc hs'
    have hle := hacross last (by simp [words_append, hlast]) first' hfirst'
    rwa [Span.Precedes, hstop, hstart']

/-! ### Nodes side by side -/

/-- Nodes that have been read one after another lie apart. -/
theorem Derives.apart (h : Derives ts ns) (hts : InOrder ts) : ns.Pairwise Node.Apart := by
  induction h with
  | nil => exact .nil
  | @mark ts ns t _ ih =>
    have hcons : InOrder ([t] ++ ts) := hts
    exact ih hcons.of_append.2.1
  | @node n ts us ns below fits h _ ih =>
    obtain ⟨hts, hus, hacross⟩ := hts.of_append
    refine .cons (fun m hm s hs s' hs' => .inl ?_) (ih hus)
    obtain ⟨-, last, hlast, hstop⟩ := (Derives.single below fits).standIn.exists_bounds hts (mem_singleton_self n) hs
    obtain ⟨⟨first, hfirst, hstart⟩, -⟩ := h.standIn.exists_bounds hus hm hs'
    rw [Span.Precedes, hstop, hstart]
    exact hacross last hlast first hfirst
  | perm _ hperm ih => exact (hperm.pairwise_iff Node.Apart.symm).1 (ih hts)

/-- The spans of a tree lie in the text. A span holds those of all that stands in the header of its
node; decorators lie before the header and the body after it. What stands below two nodes that are
right below one, or are statements of the file, does not overlap. -/
theorem spans_nest {source : Source} {m : Module} (h : parse source = .ok m) :
    m.span = source.span 0 source.length ∧ (∀ n ∈ m.nodes, ∀ s ∈ n.span?, s.stop ≤ source.length ∧ n.Nests s) ∧
      (Node.ofStmts m.body).Pairwise Node.Apart ∧ ∀ n ∈ m.nodes, n.children.Pairwise Node.Apart := by
  obtain ⟨tokens, ts, rest, htokens, rfl, hderives, hspan⟩ := Grammar.derives_of_parse h
  obtain ⟨hts, -, -⟩ := (inOrder_of_tokenize htokens).of_append
  have hbelow : ∀ n ∈ m.nodes, ∃ before own after, ts = before ++ own ++ after ∧ Derives own n.children ∧
      n.FitsTokens own := by
    intro n hn
    obtain ⟨root, hroot, hn⟩ := List.mem_flatMap.1 hn
    exact hderives.exists_derivation_of_tree hroot hn
  refine ⟨hspan, fun n hn s hs => ⟨?_, ?_⟩, hderives.apart hts, fun n hn => ?_⟩
  · obtain ⟨root, hroot, hn⟩ := List.mem_flatMap.1 hn
    have hin := Node.mem_spans.2 ⟨n, hn, hs⟩
    obtain ⟨-, last, hlast, hstop⟩ := hderives.standIn.exists_bounds hts hroot hin
    rw [hstop]
    exact ((Token.words_of_tokenize htokens).1 last (by simp [words_append, hlast])).in_bounds.2
  · obtain ⟨before, own, after, rfl, -, hfits⟩ := hbelow n hn
    exact hfits.nests hts.of_append.1.of_append.2.1 hs
  · obtain ⟨before, own, after, rfl, hown, -⟩ := hbelow n hn
    exact hown.apart hts.of_append.1.of_append.2.1

/-- A function with a decorator, and a handler in its body. -/
def guardedFunction : Source :=
  .ofText ⟨"m.py"⟩ "@d(1)\ndef f(a=1):\n    try:\n        (a)\n    except E as e:\n        return lambda b: [a, b]\n"

/-- One decorator, and the bodies of the function and of the handler, lie outside of headers. -/
theorem spans_nest_guardedFunction : ∃ m, parse guardedFunction = .ok m ∧
    (m.nodes.flatMap Node.leading).length = 1 ∧ (m.nodes.flatMap Node.trailing).length = 2 ∧
    (m.nodes.filterMap Node.span?).length = 23 ∧
    (∀ n ∈ m.nodes, ∀ s ∈ n.span?, s.stop ≤ guardedFunction.length ∧ n.Nests s) ∧
    ∀ n ∈ m.nodes, n.children.Pairwise Node.Apart := by
  have hcount : (parse guardedFunction).toOption.map (fun m => ((m.nodes.flatMap Node.leading).length,
      (m.nodes.flatMap Node.trailing).length, (m.nodes.filterMap Node.span?).length)) = some (1, 2, 23) := by
    decide +kernel
  obtain ⟨m, hm, hlengths⟩ := exists_of_map_toOption hcount
  obtain ⟨hleading, hlengths⟩ := Prod.mk.inj hlengths
  obtain ⟨htrailing, hspans⟩ := Prod.mk.inj hlengths
  obtain ⟨-, hnests, -, hapart⟩ := spans_nest hm
  exact ⟨m, hm, hleading, htrailing, hspans, hnests, hapart⟩

end TypeInfer
