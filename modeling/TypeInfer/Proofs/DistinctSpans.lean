/-
Nodes that are known by their spans. Every name in a tree has a token of its own
(`Derives.subperm_nameStarts`), and no two tokens start at one offset. From the first token of a
definition one comes to its name (`name_of_start`).
-/
import Mathlib.Data.List.Perm.Subperm
import TypeInfer.Proofs.NodeSpans

namespace TypeInfer

open List
open Token (words words_append words_cons_of_word)

variable {ts : List Token} {s : Span} {n : Node} {ns : List Node}

namespace Node

/-- The span of an occurrence of a name. -/
def name? : Node → Option Span
  | .expr (.name span _) => some span
  | .ident i => some i.span
  | _ => none

/-- The span of the definition of a function, be it a lambda, or of a class. -/
def definition? : Node → Option Span
  | .function d => some d.span
  | .cls d => some d.span
  | _ => none

theorem tree_eq (n : Node) : n.tree = n :: n.children.flatMap tree := by
  rw [tree]
  simp [flatMap_subtype]

/-- Where the names of a tree start. -/
def nameStarts (n : Node) : List Nat := (n.tree.filterMap name?).map Span.start

theorem nameStarts_eq (n : Node) :
    n.nameStarts = (n.name?.map Span.start).toList ++ n.children.flatMap nameStarts := by
  have hbelow : ((n.children.flatMap tree).filterMap name?).map Span.start = n.children.flatMap nameStarts := by
    rw [filterMap_flatMap, map_flatMap]
    rfl
  rw [nameStarts, tree_eq]
  cases hname : n.name? with
  | none => simpa [hname] using hbelow
  | some s => simpa [hname] using hbelow

/-- A name is one token, with nothing below it. -/
theorem children_of_name (h : n.name? = some s) : n.children = [] ∧ n.span? = some s ∧ n.isHeaded = false := by
  cases n with
  | ident i => exact ⟨rfl, h, rfl⟩
  | expr e =>
    cases e with
    | name span id => exact ⟨rfl, h, rfl⟩
    | _ => cases h
  | _ => cases h

/-- A definition has its name below it. -/
theorem children_of_defined {i} (h : n.defined? = some i) :
    n.name? = none ∧ ∃ more, n.children = .ident i :: more := by
  cases n with
  | function d =>
    cases d
    obtain rfl := Option.some.inj h
    exact ⟨rfl, _, rfl⟩
  | cls d =>
    cases d
    obtain rfl := Option.some.inj h
    exact ⟨rfl, _, rfl⟩
  | _ => cases h

/-- The span of the name that a node defines. -/
def definedSpan? (n : Node) : Option Span := n.defined?.map Ident.span

theorem sublist_flatMap_tree (h : ∀ n ∈ ns, (n.tree.filterMap definedSpan?).Sublist (n.tree.filterMap name?)) :
    ((ns.flatMap tree).filterMap definedSpan?).Sublist ((ns.flatMap tree).filterMap name?) := by
  induction ns with
  | nil => simp
  | cons n ns ih =>
    obtain ⟨hn, hns⟩ := forall_mem_cons.1 h
    simp only [flatMap_cons, filterMap_append]
    exact hn.append (ih hns)

theorem defined_sublist (n : Node) : (n.tree.filterMap definedSpan?).Sublist (n.tree.filterMap name?) := by
  induction n using Node.induction with
  | step n ih =>
    have hbelow {ns : List Node} (hns : ∀ c ∈ ns, c ∈ n.children) :
        ((ns.flatMap tree).filterMap definedSpan?).Sublist ((ns.flatMap tree).filterMap name?) :=
      sublist_flatMap_tree fun c hc => ih c (hns c hc)
    rw [tree_eq]
    cases hdefined : n.defined? with
    | none =>
      have hnone : n.definedSpan? = none := by simp [definedSpan?, hdefined]
      have hrest := hbelow fun c hc => hc
      cases hname : n.name? with
      | none => simpa [hnone, hname] using hrest
      | some s => simpa [hnone, hname] using hrest.cons s
    | some i =>
      have hsome : n.definedSpan? = some i.span := by simp [definedSpan?, hdefined]
      obtain ⟨hname, more, hmore⟩ := children_of_defined hdefined
      have hrest := hbelow fun c hc => hmore ▸ mem_cons_of_mem (.ident i) hc
      -- the node gives the span on one side, the name below it on the other
      have hident : (Node.ident i).tree = [.ident i] := by simp [tree_eq, children]
      have hi : (Node.ident i).name? = some i.span := rfl
      have hi' : (Node.ident i).definedSpan? = none := rfl
      simpa [hmore, hident, hsome, hname, hi, hi'] using hrest.cons_cons i.span

end Node

/-! ### Tokens by where they start -/

/-- The tokens that are no layout tokens start at ever greater offsets. -/
def Ascending (ts : List Token) : Prop := (words ts).Pairwise fun a b => a.span.start < b.span.start

theorem Ascending.of_append {us : List Token} (h : Ascending (ts ++ us)) : Ascending ts ∧ Ascending us := by
  rw [Ascending, words_append, pairwise_append] at h
  exact ⟨h.1, h.2.1⟩

theorem ascending_of_tokenize {source : Source} {tokens : List Token} (h : Token.tokenize source = .ok tokens) :
    Ascending tokens := by
  obtain ⟨hspelled, hordered⟩ := Token.words_of_tokenize h
  refine hordered.imp_of_mem fun {a b} ha _ hab => ?_
  have hlt := (hspelled a ha).in_bounds.1
  omega

theorem Covers.start_eq (h : Covers ts s) (hordered : Ascending ts) :
    ∃ first rest, ts = first :: rest ∧ first.kind.isLayout = false ∧ s.start = first.span.start := by
  obtain ⟨first, rest, rfl, hfirst, rfl⟩ := h
  refine ⟨first, rest, rfl, hfirst, ?_⟩
  rw [Ascending, words_cons_of_word hfirst] at hordered
  obtain ⟨last, hlast, heq⟩ := exists_lastSpan_eq first rest
  have hle : first.span.start ≤ last.span.start := by
    rcases hlast with rfl | hlast
    · exact Nat.le_refl _
    · exact Nat.le_of_lt (rel_of_pairwise_cons hordered hlast)
  rw [heq]
  exact Nat.min_eq_left hle

/-- What starts with tokens of its own at each node does so below all of them. -/
theorem Derives.subperm_starts {starts}
    (hstarts : ∀ (n : Node) (ts : List Token), Derives ts n.children → n.FitsTokens ts → Ascending ts → (n.children.flatMap starts).Subperm ((words ts).map fun t => t.span.start) → (starts n).Subperm ((words ts).map fun t => t.span.start))
    (h : Derives ts ns) (hordered : Ascending ts) :
    (ns.flatMap starts).Subperm ((words ts).map fun t => t.span.start) := by
  induction h with
  | nil => exact nil_subperm
  | @mark ts ns t _ ih =>
    have hsub : (words ts).Sublist (words (t :: ts)) := (sublist_cons_self t ts).filter _
    have htail : Ascending ts := hordered.sublist hsub
    exact (ih htail).trans (hsub.map _).subperm
  | @node n ts us ns below fits _ ihbelow ih =>
    obtain ⟨hts, hus⟩ := hordered.of_append
    rw [flatMap_cons, words_append, map_append]
    exact (hstarts n ts below fits hts (ihbelow hts)).append (ih hus)
  | perm _ hperm ih => exact ((hperm.flatMap_right _).symm.subperm).trans (ih hordered)

theorem Node.FitsTokens.singleton_subperm (h : n.FitsTokens ts) (hspan : n.span? = some s)
    (hheaded : n.isHeaded = false) (hordered : Ascending ts) :
    [s.start].Subperm ((words ts).map fun t => t.span.start) := by
  obtain ⟨before, own, after, hown, hcovers, hwhole, -⟩ := h.span s hspan
  obtain ⟨rfl, rfl⟩ := hwhole hheaded
  obtain rfl : ts = own := by simpa using hown
  obtain ⟨first, rest, rfl, hfirst, hstart⟩ := hcovers.start_eq hordered
  simp [hstart, words_cons_of_word hfirst]

theorem Derives.subperm_nameStarts (h : Derives ts ns) (hordered : Ascending ts) :
    (ns.flatMap Node.nameStarts).Subperm ((words ts).map fun t => t.span.start) := by
  refine h.subperm_starts (fun n ts _ fits hts hbelow => ?_) hordered
  rw [Node.nameStarts_eq]
  cases hname : n.name? with
  | none => exact hbelow
  | some s =>
    obtain ⟨hchildren, hspan, hheaded⟩ := Node.children_of_name hname
    simpa [hchildren] using fits.singleton_subperm hspan hheaded hts

/-! ### Definitions by where they start -/

theorem same_place {α : Type} {r : α → α → Prop} {as as' bs bs' : List α} {a a' : α}
    (h : (as ++ a :: bs).Pairwise r) (heq : as ++ a :: bs = as' ++ a' :: bs') (hne : ¬r a a') (hne' : ¬r a' a) :
    a :: bs = a' :: bs' := by
  rcases append_eq_append_iff.1 heq with ⟨cs, rfl, hcs⟩ | ⟨cs, rfl, hcs⟩
  · cases cs with
    | nil => exact hcs
    | cons c cs =>
      obtain ⟨rfl, rfl⟩ := List.cons.inj hcs
      have htail := (pairwise_append.1 h).2.1
      exact absurd (rel_of_pairwise_cons htail (by simp)) hne
  · cases cs with
    | nil => exact hcs.symm
    | cons c cs =>
      obtain ⟨rfl, rfl⟩ := List.cons.inj hcs
      rw [heq] at h
      have htail := (pairwise_append.1 h).2.1
      exact absurd (rel_of_pairwise_cons htail (by simp)) hne'

/-- The name is the first token that is not one of the words that open a definition. -/
theorem OpensWith.name_eq {us vs i j} (hi : OpensWith ts i) (hj : OpensWith us j) {ws}
    (heq : ts ++ vs = us ++ ws) : i.span = j.span := by
  obtain ⟨opening, t, more, rfl, hopening, ht, hspan⟩ := hi
  obtain ⟨opening', t', more', rfl, hopening', ht', hspan'⟩ := hj
  have hdrop := congrArg (List.dropWhile fun u : Token => u.kind.opensDefinition) heq
  rw [append_assoc, append_assoc, dropWhile_append_of_pos hopening,
    dropWhile_append_of_pos hopening', cons_append, cons_append,
    dropWhile_cons_of_neg (by simp [ht]), dropWhile_cons_of_neg (by simp [ht'])] at hdrop
  obtain ⟨rfl, -⟩ := List.cons.inj hdrop
  exact hspan.symm.trans hspan'

/-- Where a definition starts tells its name. -/
theorem name_of_start {tokens before header after before' header' after' : List Token} {s' : Span} {i j : Ident}
    (hordered : Ascending tokens) (heq : tokens = before ++ header ++ after)
    (heq' : tokens = before' ++ header' ++ after') (hcovers : Covers header s) (hcovers' : Covers header' s')
    (hi : OpensWith header i) (hj : OpensWith header' j) (hstart : s.start = s'.start) : i.span = j.span := by
  have hheader : Ascending header := (heq ▸ hordered).of_append.1.of_append.2
  have hheader' : Ascending header' := (heq' ▸ hordered).of_append.1.of_append.2
  obtain ⟨first, rest, rfl, hfirst, hs⟩ := hcovers.start_eq hheader
  obtain ⟨first', rest', rfl, hfirst', hs'⟩ := hcovers'.start_eq hheader'
  have hpairwise := pairwise_filter.1 hordered
  rw [heq, append_assoc, cons_append] at hpairwise
  have hsplit : before ++ first :: (rest ++ after) = before' ++ first' :: (rest' ++ after') := by
    simpa [heq] using heq'
  have hplace := same_place hpairwise hsplit (by simp [hfirst, hfirst']; omega) (by simp [hfirst, hfirst']; omega)
  exact hi.name_eq hj hplace

/-! ### Spans of a tree -/

theorem Span.not_same_of_start {a b : Span} (h : a.start ≠ b.start) : a.same b = false := by
  simp [Span.same, h]

theorem Module.nodup_nameStarts {m : Module} (h : Derives ts (Node.ofStmts m.body)) (hordered : Ascending ts) :
    ((m.nodes.filterMap Node.name?).map Span.start).Nodup := by
  have hstarts : (m.nodes.filterMap Node.name?).map Span.start = (Node.ofStmts m.body).flatMap Node.nameStarts := by
    rw [Module.nodes, filterMap_flatMap, map_flatMap]
    rfl
  have hwords : ((words ts).map fun t => t.span.start).Nodup := by
    rw [List.Nodup, pairwise_map]
    exact hordered.imp fun hlt => Nat.ne_of_lt hlt
  obtain ⟨l, hperm, hsub⟩ := h.subperm_nameStarts hordered
  rw [hstarts, ← hperm.nodup_iff]
  exact hwords.sublist hsub

theorem Node.defined_of_definition (h : s ∈ n.definition?) : n.span? = some s ∧ ∃ i, n.defined? = some i := by
  cases n with
  | function d => exact ⟨h, d.name, rfl⟩
  | cls d => exact ⟨h, d.name, rfl⟩
  | _ => cases h

/-- The header of a definition below the nodes. -/
theorem Derives.exists_header (h : Derives ts ns) (hn : n ∈ ns.flatMap Node.tree) (hs : s ∈ n.definition?) :
    ∃ before header after i, ts = before ++ header ++ after ∧ Covers header s ∧ n.definedSpan? = some i.span ∧
      OpensWith header i := by
  obtain ⟨root, hroot, hn⟩ := mem_flatMap.1 hn
  obtain ⟨before, own, after, rfl, hfits⟩ := h.exists_stretch_of_tree hroot hn
  obtain ⟨hspan, i, hi⟩ := Node.defined_of_definition hs
  obtain ⟨before', header, after', rfl, hcovers, -, hopens, -⟩ := hfits.span s hspan
  exact ⟨before ++ before', header, after' ++ after, i, by simp, hcovers, by simp [Node.definedSpan?, hi], hopens i hi⟩

/-- No two occurrences of names in the tree of a text have the same span, and no two definitions
have. -/
theorem spans_tell_nodes_apart {source : Source} {m : Module} (h : parse source = .ok m) :
    (m.nodes.filterMap Node.name?).Pairwise (fun a b => a.same b = false) ∧
    (m.nodes.filterMap Node.definition?).Pairwise (fun a b => a.same b = false) := by
  obtain ⟨tokens, ts, rest, htokens, rfl, hderives, -⟩ := Grammar.derives_of_parse h
  have hordered := (ascending_of_tokenize htokens).of_append.1
  have hnames := Module.nodup_nameStarts hderives hordered
  refine ⟨(List.pairwise_map.1 hnames).imp Span.not_same_of_start, ?_⟩
  -- definitions that start together would have one name
  have hdefined : ((m.nodes.filterMap Node.definedSpan?).map Span.start).Nodup :=
    hnames.sublist ((Node.sublist_flatMap_tree fun n _ => n.defined_sublist).map _)
  rw [List.Nodup, List.pairwise_map, List.pairwise_filterMap] at hdefined
  rw [List.pairwise_filterMap]
  refine hdefined.imp_of_mem fun {n n'} hn hn' hne s hs s' hs' => Span.not_same_of_start fun hstart => ?_
  obtain ⟨before, header, after, i, heq, hcovers, hi, hopens⟩ := hderives.exists_header hn hs
  obtain ⟨before', header', after', j, heq', hcovers', hj, hopens'⟩ := hderives.exists_header hn' hs'
  have hname := name_of_start hordered heq heq' hcovers hcovers' hopens hopens' hstart
  exact hne i.span hi j.span hj (congrArg Span.start hname)

/-- A function whose name is a parameter of it, and the lambdas that it gives. -/
def nestedLambdas : Source := .ofText ⟨"m.py"⟩ "async def f(f):\n    return lambda: lambda f: f\n"

/-- Three definitions; the names are those of the definitions, two parameters and what is returned.
-/
theorem spans_tell_nodes_apart_nestedLambdas : ∃ m, parse nestedLambdas = .ok m ∧
    (m.nodes.filterMap Node.definition?).length = 3 ∧ (m.nodes.filterMap Node.name?).length = 6 ∧
    (m.nodes.filterMap Node.name?).Pairwise (fun a b => a.same b = false) ∧
    (m.nodes.filterMap Node.definition?).Pairwise (fun a b => a.same b = false) := by
  have hcount : (parse nestedLambdas).toOption.map (fun m =>
      ((m.nodes.filterMap Node.definition?).length, (m.nodes.filterMap Node.name?).length)) = some (3, 6) := by
    decide +kernel
  obtain ⟨m, hm, hlengths⟩ := exists_of_map_toOption hcount
  obtain ⟨hdefinitions, hnames⟩ := Prod.mk.inj hlengths
  exact ⟨m, hm, hdefinitions, hnames, spans_tell_nodes_apart hm⟩

end TypeInfer
