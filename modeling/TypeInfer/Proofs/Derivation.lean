/-
How nodes come from tokens. `Derives ts ns` says that the nodes were read from the tokens: each
node has a stretch of its own, from which the nodes below it were read in turn. The span of a node
covers its stretch (`Covers`), or its header, which opens with its words and its name (`OpensWith`).
-/
import TypeInfer.Proofs.Node
import TypeInfer.Token.Basic

namespace TypeInfer

open List

variable (last : Span)

/-- The span of the last token that is no layout token. -/
def lastSpan (last : Span) (ts : List Token) : Span :=
  ts.foldl (fun last t => if t.kind.isLayout then last else t.span) last

@[simp] theorem lastSpan_nil : lastSpan last [] = last := rfl

@[simp] theorem lastSpan_append (ts us : List Token) :
    lastSpan last (ts ++ us) = lastSpan (lastSpan last ts) us :=
  foldl_append

/-- The span reaches from the first of the tokens to the last that is no layout token. -/
def Covers (ts : List Token) (s : Span) : Prop :=
  ∃ first rest, ts = first :: rest ∧ first.kind.isLayout = false ∧ s = first.span.merge (lastSpan first.span rest)

@[simp] theorem Span.merge_self (s : Span) : s.merge s = s := by
  simp [Span.merge]

/-- The words that stand before the name of a definition. -/
def TokenKind.opensDefinition : TokenKind → Bool
  | .keyword .asyncKw | .keyword .defKw | .keyword .classKw => true
  | _ => false

/-- After the words that open a definition comes its name. A lambda has no such words. -/
def OpensWith (ts : List Token) (i : Ident) : Prop :=
  ∃ opening t more, ts = opening ++ t :: more ∧ (∀ u ∈ opening, u.kind.opensDefinition = true) ∧
    t.kind.opensDefinition = false ∧ t.span = i.span

namespace Node

variable {n m : Node} {ts : List Token}

/-- The span of a node, if it has one. -/
def span? : Node → Option Span
  | .expr e => some e.span
  | .stmt s => some s.span
  | .function d => some d.span
  | .cls d => some d.span
  | .handler h => some h.span
  | .ident i => some i.span
  | .imported a => some a.span
  | .names (.star span) => some span
  | _ => none

/-- Whether the span of the node is that of its header. -/
def isHeaded : Node → Bool
  | .stmt (.function _) | .stmt (.classDef _) | .function _ | .cls _ | .handler _ => true
  | _ => false

/-- The name that the node defines. -/
def defined? : Node → Option Ident
  | .function d => some d.name
  | .cls d => some d.name
  | _ => none

/-- The decorators, which stand before the header of a definition. -/
def leading : Node → List Node
  | .stmt (.function d) => ofExprs d.decorators
  | .stmt (.classDef d) => ofExprs d.decorators
  | _ => []

/-- What stands inside the span of a node: in its header, or all that is right below it. -/
def header : Node → List Node
  | .stmt (.function d) | .function d => ident d.name :: (d.params.map param ++ ofExpr? d.returns)
  | .stmt (.classDef d) | .cls d => ident d.name :: (ofExprs d.bases ++ d.keywords.map keyword)
  | .handler h => ofExpr? h.type ++ ofIdents h.name.toList
  | n => n.children

/-- The body, which stands after the header of a definition or a handler. -/
def trailing : Node → List Node
  | .stmt (.function d) => ofStmts d.body
  | .stmt (.classDef d) => ofStmts d.body
  | .handler h => ofStmts h.body
  | _ => []

theorem perm_definition (name : Node) (decorators params returns body : List Node) :
    (decorators ++ (name :: (params ++ returns)) ++ body).Perm (name :: (params ++ body ++ decorators ++ returns)) := by
  have hrest : (returns ++ (body ++ decorators)).Perm (body ++ decorators ++ returns) := perm_append_comm
  calc decorators ++ (name :: (params ++ returns)) ++ body
    _ = decorators ++ (name :: (params ++ returns) ++ body) := by rw [append_assoc]
    List.Perm _ (name :: (params ++ returns) ++ body ++ decorators) := perm_append_comm
    _ = name :: (params ++ (returns ++ (body ++ decorators))) := by simp
    List.Perm _ (name :: (params ++ (body ++ decorators ++ returns))) := (hrest.append_left params).cons name
    _ = name :: (params ++ body ++ decorators ++ returns) := by simp

/-- The statement defines what stands right below it. -/
inductive Defines : Node → Node → Prop where
  | function (d : FunctionDef) : Defines (.stmt (.function d)) (.function d)
  | cls (d : ClassDef) : Defines (.stmt (.classDef d)) (.cls d)

theorem Defines.children {d} (h : n.Defines d) : n.children = [d] := by
  cases h <;> rfl

theorem Defines.span {d} (h : n.Defines d) : n.span? = d.span? := by
  cases h <;> rfl

theorem Defines.perm {d} (h : n.Defines d) :
    (n.leading ++ n.header ++ n.trailing).Perm d.children := by
  cases h with
  | function d =>
    cases d
    exact perm_definition ..
  | cls d =>
    obtain ⟨span, name, bases, keywords, body, decorators⟩ := d
    have hperm := perm_definition (ident name) (ofExprs decorators) (ofExprs bases ++ keywords.map keyword) [] (ofStmts body)
    simpa [leading, header, trailing, Node.children] using hperm

/-- Every node of the trees stands among the tokens: its span covers some of them. -/
def StandIn (ns : List Node) (ts : List Token) : Prop :=
  ∀ n ∈ ns, ∀ m ∈ n.tree, ∀ s ∈ m.span?, ∃ before own after, ts = before ++ own ++ after ∧ Covers own s

theorem standIn_nil (ts : List Token) : StandIn [] ts := by
  simp [StandIn]

theorem StandIn.mono {ns ms} (h : StandIn ns ts) (hms : ms ⊆ ns) : StandIn ms ts :=
  fun n hn => h n (hms hn)

/-- Besides the nodes below it: its span covers the tokens of its header, a definition opens with its name,
and targets can be assigned to. -/
structure FitsTokens (n : Node) (ts : List Token) : Prop where
  span : ∀ s ∈ n.span?, ∃ before own after, ts = before ++ own ++ after ∧ Covers own s ∧
    (n.isHeaded = false → before = [] ∧ after = []) ∧ (∀ i ∈ n.defined?, OpensWith own i) ∧
    StandIn n.leading before ∧ StandIn n.header own ∧ StandIn n.trailing after
  targets : ∀ e ∈ n.targets, e.isAssignable

theorem header_eq_children (h : n.isHeaded = false) : n.header = n.children := by
  cases n with
  | stmt s => cases s <;> first | rfl | cases h
  | function d => cases h
  | cls d => cases h
  | handler d => cases h
  | _ => rfl

/-- Whether the span may be that of all tokens of the node. -/
def isWhole : Node → Bool
  | .stmt (.function _) | .stmt (.classDef _) | .handler _ => false
  | _ => true

theorem leading_of_isWhole (h : n.isWhole = true) : n.leading = [] := by
  cases n with
  | stmt s => cases s <;> first | rfl | cases h
  | _ => rfl

theorem trailing_of_isWhole (h : n.isWhole = true) : n.trailing = [] := by
  cases n with
  | stmt s => cases s <;> first | rfl | cases h
  | handler d => cases h
  | _ => rfl

theorem header_subset_of_isWhole (h : n.isWhole = true) : n.header ⊆ n.children := by
  cases n with
  | stmt s => cases s <;> first | exact List.Subset.refl _ | cases h
  | function d =>
    cases d
    grind [header, children]
  | cls d =>
    cases d
    grind [header, children]
  | handler d => cases h
  | _ => exact List.Subset.refl _

theorem FitsTokens.over (h : n.FitsTokens ts) (hn : n.isHeaded = false) (hm : m.isHeaded = false)
    (hspan : m.span? = n.span?) (hchildren : m.children = [n]) (hleading : m.leading = []) (htrailing : m.trailing = [])
    (hdefined : m.defined? = none) (htargets : m.targets = []) : m.FitsTokens ts := by
  refine ⟨fun s hs => ?_, by simp [htargets]⟩
  rw [hspan] at hs
  obtain ⟨before, own, after, hts, hcovers, hwhole, -, -, hheader, -⟩ := h.span s hs
  refine ⟨before, own, after, hts, hcovers, fun _ => hwhole hn, by simp [hdefined], ?_, ?_, ?_⟩
  · exact hleading ▸ standIn_nil before
  · rw [header_eq_children hm, hchildren]
    rw [header_eq_children hn] at hheader
    intro n' hn' below hbelow s' hs'
    obtain rfl := mem_singleton.1 hn'
    rcases mem_tree.1 hbelow with rfl | ⟨c, hc, hbelow⟩
    · obtain rfl := Option.some.inj (hs.symm.trans hs')
      exact ⟨[], own, [], by simp, hcovers⟩
    · exact hheader c hc below hbelow s' hs'
  · exact htrailing ▸ standIn_nil after

end Node

/-- The nodes have been read from the tokens. -/
inductive Derives : List Token → List Node → Prop where
  | nil : Derives [] []
  | mark {ts ns} (t : Token) (h : Derives ts ns) : Derives (t :: ts) ns
  | node {n ts us ns} (below : Derives ts n.children) (fits : n.FitsTokens ts) (h : Derives us ns) :
    Derives (ts ++ us) (n :: ns)
  | perm {ts ns ms} (h : Derives ts ns) (hperm : ns.Perm ms) : Derives ts ms

namespace Derives

variable {n : Node} {ns ms : List Node} {ts us : List Token}

theorem marks (ts : List Token) : Derives ts [] := by
  induction ts with
  | nil => exact .nil
  | cons t ts ih => exact .mark t ih

theorem append (h : Derives ts ns) (h' : Derives us ms) : Derives (ts ++ us) (ns ++ ms) := by
  induction h with
  | nil => exact h'
  | mark t _ ih => exact .mark t ih
  | node below fits _ _ ih =>
    rw [append_assoc]
    exact .node below fits ih
  | perm _ hperm ih => exact .perm ih (hperm.append_right ms)

theorem single (below : Derives ts n.children) (fits : n.FitsTokens ts) : Derives ts [n] := by
  have h := Derives.node below fits .nil
  rwa [append_nil] at h

theorem exchange {rest} (h : Derives ts ns) (hperm : ns.Perm (n :: rest))
    (hn : ∀ ts, Derives ts [n] → Derives ts ms) : Derives ts (ms ++ rest) := by
  induction h generalizing rest with
  | nil => exact absurd hperm.length_eq (by simp)
  | mark t _ ih => exact .mark t (ih hperm)
  | @node n' ts us ns below fits h _ ih =>
    rcases mem_cons.1 (hperm.mem_iff.2 (mem_cons_self ..)) with rfl | hmem
    · exact .perm (.append (hn _ (.single below fits)) h) (hperm.cons_inv.append_left ms)
    · obtain ⟨l₁, l₂, rfl⟩ := append_of_mem hmem
      have hns := ih perm_middle
      have hrest : (n' :: (l₁ ++ l₂)).Perm rest := by
        refine List.Perm.cons_inv (a := n) (.trans ?_ hperm)
        exact (List.Perm.swap n' n (l₁ ++ l₂)).trans (perm_middle.symm.cons n')
      exact .perm (.node below fits hns) (perm_middle.symm.trans (hrest.append_left ms))
  | perm _ hperm' ih => exact ih (hperm'.trans hperm)

theorem replace {before after} (h : Derives ts (before ++ n :: after))
    (hn : ∀ ts, Derives ts [n] → Derives ts ms) : Derives ts (before ++ ms ++ after) := by
  refine .perm (h.exchange perm_middle hn) ?_
  rw [← append_assoc]
  exact perm_append_comm.append_right after

section

variable (h : Derives ts ns)
include h

/-- Each node has a stretch of its own. -/
theorem exists_stretch (hn : n ∈ ns) :
    ∃ before own after, ts = before ++ own ++ after ∧ Derives own n.children ∧ n.FitsTokens own := by
  induction h with
  | nil => simp at hn
  | mark t _ ih =>
    obtain ⟨before, own, after, rfl, hown⟩ := ih hn
    exact ⟨t :: before, own, after, rfl, hown⟩
  | @node n' ts us ns below fits h _ ih =>
    rcases mem_cons.1 hn with rfl | hn
    · exact ⟨[], ts, us, rfl, below, fits⟩
    · obtain ⟨before, own, after, rfl, hown⟩ := ih hn
      exact ⟨ts ++ before, own, after, by simp, hown⟩
  | perm _ hperm ih => exact ih (hperm.mem_iff.2 hn)

/-- So has every node of their trees. -/
theorem exists_derivation_of_tree (hn : n ∈ ns) (hm : m ∈ n.tree) :
    ∃ before own after, ts = before ++ own ++ after ∧ Derives own m.children ∧ m.FitsTokens own := by
  induction n using Node.induction generalizing ts ns with
  | step n ih =>
    obtain ⟨before, own, after, rfl, hbelow, hfits⟩ := h.exists_stretch hn
    rcases Node.mem_tree.1 hm with rfl | ⟨c, hc, hm⟩
    · exact ⟨before, own, after, rfl, hbelow, hfits⟩
    · obtain ⟨before', own', after', rfl, hown'⟩ := ih c hc hbelow hc hm
      exact ⟨before ++ before', own', after' ++ after, by simp, hown'⟩

theorem exists_stretch_of_tree (hn : n ∈ ns) (hm : m ∈ n.tree) :
    ∃ before own after, ts = before ++ own ++ after ∧ m.FitsTokens own := by
  obtain ⟨before, own, after, heq, -, hfits⟩ := h.exists_derivation_of_tree hn hm
  exact ⟨before, own, after, heq, hfits⟩

theorem standIn : Node.StandIn ns ts := by
  intro n hn m hm s hs
  obtain ⟨before, own, after, rfl, hfits⟩ := h.exists_stretch_of_tree hn hm
  obtain ⟨before', own', after', rfl, hcovers, -⟩ := hfits.span s hs
  exact ⟨before ++ before', own', after' ++ after, by simp, hcovers⟩

end

theorem fitsTokens_whole (h : Derives ts n.children) (hwhole : n.isWhole = true) (hspan : ∀ s ∈ n.span?, Covers ts s)
    (hdefined : ∀ i ∈ n.defined?, OpensWith ts i) (htargets : ∀ e ∈ n.targets, e.isAssignable) : n.FitsTokens ts := by
  refine ⟨fun s hs => ⟨[], ts, [], by simp, hspan s hs, fun _ => ⟨rfl, rfl⟩, hdefined, ?_, ?_, ?_⟩, htargets⟩
  · exact Node.leading_of_isWhole hwhole ▸ Node.standIn_nil []
  · exact h.standIn.mono (Node.header_subset_of_isWhole hwhole)
  · exact Node.trailing_of_isWhole hwhole ▸ Node.standIn_nil []

theorem fitsTokens_parts {vs as bs cs s} (has : Derives ts as) (hbs : Derives us bs)
    (hcs : Derives vs cs) (hleading : n.leading ⊆ as) (hheader : n.header ⊆ bs)
    (htrailing : n.trailing ⊆ cs) (hspan : n.span? = some s) (hcovers : Covers us s)
    (hheaded : n.isHeaded = true) (hdefined : ∀ i ∈ n.defined?, OpensWith us i)
    (htargets : n.targets = []) : n.FitsTokens (ts ++ us ++ vs) := by
  refine ⟨fun s' hs' => ⟨ts, us, vs, rfl, ?_, by simp [hheaded], hdefined, ?_, ?_, ?_⟩, by simp [htargets]⟩
  · obtain rfl := Option.some.inj (hspan.symm.trans hs')
    exact hcovers
  · exact has.standIn.mono hleading
  · exact hbs.standIn.mono hheader
  · exact hcs.standIn.mono htrailing

/-! ### Nodes in place of others -/

/-- The nodes below a node, in its place. -/
theorem flatten (h : Derives ts [n]) : Derives ts n.children := by
  obtain ⟨before, own, after, rfl, hbelow, -⟩ := h.exists_stretch (mem_singleton.2 rfl)
  have h := ((marks before).append hbelow).append (marks after)
  rwa [nil_append, append_nil] at h

/-- A node over the same nodes and with the same span. -/
theorem alike (h : Derives ts [n]) (hchildren : m.children = n.children)
    (hfits : ∀ own, n.FitsTokens own → m.FitsTokens own) : Derives ts [m] := by
  obtain ⟨before, own, after, rfl, hbelow, hown⟩ := h.exists_stretch (mem_singleton.2 rfl)
  rw [← hchildren] at hbelow
  have h := ((marks before).append (.single hbelow (hfits own hown))).append (marks after)
  rwa [nil_append, append_nil] at h

theorem wrap (h : Derives ts [n]) (hchildren : m.children = [n]) (hfits : ∀ own, n.FitsTokens own → m.FitsTokens own) :
    Derives ts [m] := by
  obtain ⟨before, own, after, rfl, hbelow, hown⟩ := h.exists_stretch (mem_singleton.2 rfl)
  have hm : Derives own [m] := .single (hchildren ▸ .single hbelow hown) (hfits own hown)
  have h := ((marks before).append hm).append (marks after)
  rwa [nil_append, append_nil] at h

/-- Each node of a list gives way to others. -/
theorem replaceAll {α : Type} {f : α → Node} {g : α → List Node} {before : List Node} {as : List α}
    (h : Derives ts (before ++ as.map f)) (hfg : ∀ a ts, Derives ts [f a] → Derives ts (g a)) :
    Derives ts (before ++ as.flatMap g) := by
  induction as generalizing before with
  | nil => exact h
  | cons a as ih => simpa using ih (h.replace (hfg a))

end Derives

end TypeInfer
