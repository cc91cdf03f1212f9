/-
Where the nodes of a tree stand. The span of a node is the merge of those of its first and last
token (`exists_ends`), which is known from their offsets. The column of its end is right only if
the first token ends there or on an earlier line.
-/
import TypeInfer.Proofs.Positions
import TypeInfer.Proofs.ReadBlock
import TypeInfer.Proofs.TokenCover

namespace TypeInfer

open Token (words words_append words_cons_of_word words_cons_of_layout)

variable {source : Source}

theorem exists_words_concat (t : Token) (ts : List Token) :
    ∃ init last, t :: words ts = init ++ [last] ∧ lastSpan t.span ts = last.span := by
  induction ts generalizing t with
  | nil => exact ⟨[], t, rfl, rfl⟩
  | cons u ts ih =>
    cases hlayout : u.kind.isLayout with
    | true =>
      obtain ⟨init, last, hwords, heq⟩ := ih t
      exact ⟨init, last, words_cons_of_layout hlayout ts ▸ hwords, by simpa [lastSpan, hlayout] using heq⟩
    | false =>
      obtain ⟨init, last, hwords, heq⟩ := ih u
      refine ⟨t :: init, last, ?_, by simpa [lastSpan, hlayout] using heq⟩
      rw [words_cons_of_word hlayout, hwords, List.cons_append]

/-- The last token that is no layout token. -/
theorem exists_lastSpan_eq (t : Token) (ts : List Token) :
    ∃ last, (last = t ∨ last ∈ words ts) ∧ lastSpan t.span ts = last.span := by
  obtain ⟨init, last, hwords, heq⟩ := exists_words_concat t ts
  exact ⟨last, List.mem_cons.1 (by simp [hwords]), heq⟩

theorem exists_ends {tokens before own after s} (hown : tokens = before ++ own ++ after)
    (hordered : (words tokens).Pairwise (fun a b => a.span.stop ≤ b.span.start))
    (hcovers : Covers own s) :
    ∃ first ∈ words tokens, ∃ last ∈ words tokens, (last = first ∨ first.span.stop ≤ last.span.start) ∧
      s = first.span.merge last.span := by
  obtain ⟨first, rest, rfl, hfirst, rfl⟩ := hcovers
  obtain ⟨last, hlast, heq⟩ := exists_lastSpan_eq first rest
  have hwords : words tokens = words before ++ (first :: words rest) ++ words after := by
    rw [hown, words_append, words_append, words_cons_of_word hfirst]
  rw [hwords] at hordered ⊢
  have hstretch := (List.pairwise_append.1 (List.pairwise_append.1 hordered).1).2.1
  rw [heq]
  refine ⟨first, by simp, last, ?_, hlast.imp_right (List.rel_of_pairwise_cons hstretch), rfl⟩
  rcases hlast with rfl | hlast <;> simp [*]

theorem Token.IsSpelledAt.exists_span_eq {t} (h : IsSpelledAt source t) :
    ∃ start stop, t.span = source.span start stop ∧ start ≤ stop := by
  obtain ⟨text, rest, -, hspan, -⟩ := h
  exact ⟨_, _, hspan, Nat.le_add_right _ _⟩

theorem Token.IsSpelledAt.span_eq {t} (h : IsSpelledAt source t) :
    t.span = source.span t.span.start t.span.stop := by
  obtain ⟨start, stop, hspan, -⟩ := h.exists_span_eq
  rw [hspan, Source.span_start, Source.span_stop]

theorem merge_tokens {first last} (hfirst : Token.IsSpelledAt source first)
    (hlast : Token.IsSpelledAt source last) (h : last = first ∨ first.span.stop ≤ last.span.start) :
    first.span.merge last.span =
      { source.span first.span.start last.span.stop with
        endCol := if first.span.endLine = last.span.endLine then first.span.endCol else last.span.endCol } ∧
    (first.span.merge last.span = source.span first.span.start last.span.stop ↔
      first.span.stop = last.span.stop ∨ first.span.endLine < last.span.endLine) := by
  obtain ⟨a, b, hfirst, hab⟩ := hfirst.exists_span_eq
  obtain ⟨c, d, hlast, hcd⟩ := hlast.exists_span_eq
  have hle : a ≤ c ∧ b ≤ d := by
    rcases h with rfl | h
    · rw [hfirst] at hlast
      have hstart : a = c := congrArg Span.start hlast
      have hstop : b = d := congrArg Span.stop hlast
      omega
    · rw [hfirst, hlast, Source.span_stop, Source.span_start] at h
      omega
  rw [hfirst, hlast]
  exact ⟨source.merge_span hle.1 hle.2, source.merge_span_eq_iff hle.1 hle.2⟩

/-- The span of every token is that of its offsets. The span of every node goes from the start of a
token to the end of the same or a later one, on the lines of both. Its columns are those of its
offsets, unless the first token ends on the line of the end, but not there: then the column of the
end is that of the first token's end. -/
theorem node_spans_of_parse {source : Source} {m : Module} (h : parse source = .ok m) :
    m.span = source.span 0 source.length ∧
    (∃ tokens, Token.tokenize source = .ok tokens ∧
      (∀ t ∈ words tokens, t.span = source.span t.span.start t.span.stop) ∧
      ∀ s ∈ m.body, ∀ n ∈ (Node.stmt s).tree, ∀ span ∈ n.span?, ∃ first ∈ words tokens, ∃ last ∈ words tokens,
        (last = first ∨ first.span.stop ≤ last.span.start) ∧
        span = { source.span first.span.start last.span.stop with
          endCol := if first.span.endLine = last.span.endLine then first.span.endCol else last.span.endCol } ∧
        (span = source.span span.start span.stop ↔
          first.span.stop = last.span.stop ∨ first.span.endLine < last.span.endLine)) ∧
    ∀ a b c d, a ≤ c → b ≤ d → ((source.span a b).merge (source.span c d) = source.span a d ↔
      b = d ∨ (source.position b).1 < (source.position d).1) := by
  obtain ⟨tokens, ts, rest, htokens, rfl, hderives, hspan⟩ := Grammar.derives_of_parse h
  obtain ⟨hspelled, hordered⟩ := Token.words_of_tokenize htokens
  refine ⟨hspan, ⟨_, htokens, fun t ht => (hspelled t ht).span_eq, fun s hs n hn span hspan => ?_⟩,
    fun a b c d => source.merge_span_eq_iff⟩
  obtain ⟨before, own, after, rfl, hfits⟩ := hderives.exists_stretch_of_tree (List.mem_map_of_mem hs) hn
  obtain ⟨before', header, after', rfl, hcovers, -⟩ := hfits.span span hspan
  have hheader : before ++ (before' ++ header ++ after') ++ after ++ rest =
      before ++ before' ++ header ++ (after' ++ after ++ rest) := by simp
  obtain ⟨first, hfirst, last, hlast, hends, hmerge⟩ := exists_ends hheader hordered hcovers
  obtain ⟨heq, hiff⟩ := merge_tokens (hspelled first hfirst) (hspelled last hlast) hends
  rw [← hmerge] at heq hiff
  have hstart : span.start = first.span.start := (congrArg Span.start heq).trans rfl
  have hstop : span.stop = last.span.stop := (congrArg Span.stop heq).trans rfl
  refine ⟨first, hfirst, last, hlast, hends, heq, ?_⟩
  rw [hstart, hstop]
  exact hiff

theorem exists_of_map_toOption {ε α β : Type} {x : Except ε α} {f : α → β} {b : β} (h : x.toOption.map f = some b) :
    ∃ a, x = .ok a ∧ f a = b := by
  cases x with
  | error e => cases h
  | ok a => exact ⟨a, rfl, Option.some.inj h⟩

/-- Two assignments, of which the first takes two lines. -/
def twoAssignments : Source := .ofText ⟨"m.py"⟩ "x = f(\n1)\ny = 2\n"

/-- Only the first assignment has the span of its offsets. -/
theorem node_spans_of_parse_twoAssignments : ∃ m, parse twoAssignments = .ok m ∧
    m.body.map Stmt.span = [twoAssignments.span 0 9, { twoAssignments.span 10 15 with endCol := 2 }] ∧
    ∃ tokens, Token.tokenize twoAssignments = .ok tokens ∧ ∀ s ∈ m.body, ∃ first ∈ words tokens, ∃ last ∈ words tokens,
      s.span.start = first.span.start ∧ s.span.stop = last.span.stop ∧
      (s.span = twoAssignments.span s.span.start s.span.stop ↔
        first.span.stop = last.span.stop ∨ first.span.endLine < last.span.endLine) := by
  have hspans : (parse twoAssignments).toOption.map (fun m => m.body.map Stmt.span) =
      some [twoAssignments.span 0 9, { twoAssignments.span 10 15 with endCol := 2 }] := by decide +kernel
  obtain ⟨m, hm, hbody⟩ := exists_of_map_toOption hspans
  obtain ⟨-, ⟨tokens, htokens, -, hnodes⟩, -⟩ := node_spans_of_parse hm
  refine ⟨m, hm, hbody, tokens, htokens, fun s hs => ?_⟩
  obtain ⟨first, hfirst, last, hlast, -, heq, hiff⟩ := hnodes s hs _ (Node.mem_tree_self _) s.span rfl
  exact ⟨first, hfirst, last, hlast, (congrArg Span.start heq).trans rfl, (congrArg Span.stop heq).trans rfl, hiff⟩

def oneAssignment : Source := .ofText ⟨"m.py"⟩ "x = 1\n"

/-- An assignment on one line ends in the column in which its target ends. -/
theorem assignment_span_not_of_offsets : ∃ m, parse oneAssignment = .ok m ∧ ∃ s ∈ m.body,
    s.span = { oneAssignment.span 0 5 with endCol := 2 } ∧ (oneAssignment.span 0 5).endCol = 6 := by
  have hspans : (parse oneAssignment).toOption.map (fun m => m.body.map Stmt.span) =
      some [{ oneAssignment.span 0 5 with endCol := 2 }] := by decide +kernel
  obtain ⟨m, hm, hbody⟩ := exists_of_map_toOption hspans
  obtain ⟨s, hs, hspan⟩ := List.mem_map.1 (hbody ▸ List.mem_singleton_self _)
  exact ⟨m, hm, s, hs, hspan, by decide⟩

end TypeInfer
