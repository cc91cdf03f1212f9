/-
The history of a run: which names were looked up, which problems were reported and which blocks of
code were entered, in order. `History` ties it to the marks of the code. Where the marks, the files
that are entered and what was defined before are in some code, so is what is defined after it
(`InCode.after`).
-/
import TypeInfer.Proofs.Marks
import TypeInfer.Proofs.Run

namespace TypeInfer

open List

/-- The second state has the same records of the run as the first one. -/
structure SameRecords (s t : Analysis) : Prop where
  resolved : t.resolved = s.resolved
  unresolved : t.unresolved = s.unresolved
  problems : t.problems = s.problems
  loaded : t.loaded = s.loaded
  callCount : t.callCount = s.callCount
  work : ∃ journal, t.work = { s.work with journal }
  bodies : ∀ f, (t.types.function f).body = (s.types.function f).body
  nodes : ∀ c, (t.types.cls c).node = (s.types.cls c).node

namespace SameRecords

theorem refl (s : Analysis) : SameRecords s s :=
  ⟨rfl, rfl, rfl, rfl, rfl, ⟨s.work.journal, rfl⟩, fun _ => rfl, fun _ => rfl⟩

theorem log (s : Analysis) (e : LogEvent) : SameRecords s (s.log e) :=
  ⟨rfl, rfl, rfl, rfl, rfl, ⟨_, rfl⟩, fun _ => rfl, fun _ => rfl⟩

theorem scopes (s : Analysis) (references : Std.TreeMap Span (List BindingId)) (scopes : ScopeTable) :
    SameRecords s { s with references, scopes } :=
  { refl s with }

theorem addReferences (s : Analysis) (node : Span) (ids : List BindingId) : SameRecords s (s.addReferences node ids) := by
  obtain ⟨references, scopes', heq⟩ := s.addReferences_eq node ids
  rw [heq]
  exact scopes s references scopes'

theorem bind (s : Analysis) (scope : ScopeId) (name : String) (node : Span) (ty : Ty) (kind : BindingKind) :
    SameRecords s (s.bind scope name node ty kind).1 := by
  obtain ⟨references, scopes', heq⟩ := s.bind_eq scope name node ty kind
  rw [heq]
  exact scopes s references scopes'

end SameRecords

/-- Code that is run as a whole: that of a file, or the body of a function. -/
inductive Block where
  | file (path : Path) (tree : Module)
  | body (d : FunctionDef)

def Block.code : Block → List Stmt
  | .file _ tree => tree.body
  | .body d => d.body

/-- What is met when the block is run. -/
def Block.marks (b : Block) : List Mark := Mark.ofBlock b.code

inductive Event where
  | lookup (site : Span) (name : String) (found : Bool)
  | define (d : FunctionDef)
  | cls (d : ClassDef)
  | report (d : Diagnostic)
  /-- No problem was found where one may be. -/
  | pass (code : String) (span : Span)
  | enter (block : Block)

/-- Code with the given marks was run from the first state to the second one, and this is what happened. -/
inductive History : List Mark → List Event → Analysis → Analysis → Prop where
  | aside {s t : Analysis} (same : SameRecords s t) : History [] [] s t
  | trans {s t u : Analysis} {l l' : List Mark} {e e' : List Event} (first : History l e s t)
      (rest : History l' e' t u) : History (l ++ l') (e ++ e') s u
  | found {s : Analysis} {scope : ScopeId} {name : String} {ids : List BindingId} (site : Span)
      (there : s.scopes.lookup scope name = some ids) :
      History [.read site name] [.lookup site name true] s ((s.addReferences site ids).addResolved site)
  | missed {s : Analysis} {scope : ScopeId} {name : String} (site : Span) (absent : s.scopes.lookup scope name = none) :
      History [.read site name] [.lookup site name false] s (s.addUnresolved site name)
  | define {s : Analysis} (d : FunctionDef) (defaults : List (Option Ty)) (scope : ScopeId) :
      History [.define d] [.define d] s (s.defineFunction d defaults scope).1
  | cls {s : Analysis} (d : ClassDef) (bases : List Ty) (scope : ScopeId) :
      History [.cls d] [.cls d] s (s.defineClass d bases scope).1
  | report {s : Analysis} (code message : String) (span : Span) :
      History [.problem code span] [.report (Diagnostic.error code message span)] s
        (s.report (Diagnostic.error code message span))
  | pass {s : Analysis} (code : String) (span : Span) : History [.problem code span] [.pass code span] s s
  | call {s t : Analysis} {f : FunId} {d : FunctionDef} {key : CallKey} {dir : Path} {signature : List Ty} {e : List Event}
      (body : (s.types.function f).body = .source d) (run : History (Block.body d).marks e (s.enterCall f key dir) t) :
      History [] (.enter (.body d) :: e) s (t.leaveCall f key signature s.dir)
  | unread {s : Analysis} {file : Path} (event : LogEvent) (faults : List Diagnostic)
      (full : ∃ path, file = s.files.fullPath path) (source : file.isSourceFile) :
      History [] [] s (s.unread file event faults)
  | load {s t : Analysis} {file : Path} {tree : Module} {e : List Event} (full : ∃ path, file = s.files.fullPath path)
      (source : file.isSourceFile) (opens : s.openedTree file = .ok tree)
      (run : History (Block.file file tree).marks e (s.begun file) t) :
      History [] (.enter (.file file tree) :: e) s (s.ended file t)

def Event.block? : Event → Option Block
  | .enter b => some b
  | _ => none

/-- The blocks that were entered, in order. -/
def entered (history : List Event) : List Block := history.filterMap Event.block?

@[simp] theorem entered_append (e e' : List Event) : entered (e ++ e') = entered e ++ entered e' := filterMap_append

@[simp] theorem entered_enter (b : Block) (e : List Event) : entered (.enter b :: e) = b :: entered e := rfl

variable {s t : Analysis} {l : List Mark} {e : List Event}

theorem Analysis.report_eq (s : Analysis) (d : Diagnostic) : ∃ problems, s.report d = { s with problems } := by
  unfold Analysis.report
  split
  · exact ⟨s.problems, rfl⟩
  · exact ⟨_, rfl⟩

/-! ### Where the blocks come from -/

/-- A condition on workspaces that asking for trees keeps, and what it says of these. -/
structure Supplies (W : Workspace → Prop) (Of : Path → Module → Prop) : Prop where
  journal : ∀ {w : Workspace} {journal}, W w → W { w with journal }
  after : ∀ {w : Workspace} {p : Path}, W w → (w.files.fullPath p).isSourceFile → W (w.after (w.files.fullPath p))
  tree : ∀ {w : Workspace} {p : Path} {tree : Module}, W w → (w.files.fullPath p).isSourceFile →
    ((Workspace.treeOf (w.files.fullPath p)).run w).run.1 = .ok tree → Of (w.files.fullPath p) tree

/-- The block is that of a file as said, or of a function of the code. -/
def Block.In (code : Code) (Of : Path → Module → Prop) : Block → Prop
  | .file path tree => Of path tree
  | .body d => code.Has (.function d)

/-- If the block is that of a file as said, its code is in the given one. -/
def Block.Covered (code : Code) (Of : Path → Module → Prop) : Block → Prop
  | .file path tree => Of path tree → code.HasBlock tree.body
  | .body _ => True

/-- The workspace is as said, and what was defined is in the code. -/
structure Analysis.Supplied (W : Workspace → Prop) (code : Code) (s : Analysis) : Prop where
  work : W s.work
  defined : DefinedIn code s.types

section

variable {W : Workspace → Prop} {Of : Path → Module → Prop} {code : Code}

theorem Block.Covered.of_all (h : ∀ path tree, Of path tree → code.HasBlock tree.body) (b : Block) : b.Covered code Of := by
  cases b with
  | file path tree => exact h path tree
  | body d => trivial

theorem Block.In.marks {b : Block} (h : b.In code Of) (hcode : b.Covered code Of) : Mark.AllIn code b.marks := by
  cases b with
  | file path tree => exact Mark.allIn_block (hcode h)
  | body d =>
    refine Mark.allIn_block fun st hst => code.child (n := .function d) h ?_
    have hst : st ∈ d.body := hst
    cases d
    simp [Node.children, Node.ofStmts, hst]

variable (hsupplies : Supplies W Of)

include hsupplies

theorem Analysis.Supplied.same (hs : s.Supplied W code) (h : SameRecords s t) : t.Supplied W code := by
  obtain ⟨journal, hwork⟩ := h.work
  refine ⟨?_, fun c node hnode => hs.defined.node c node ((h.nodes c).symm.trans hnode),
    fun f d hd => hs.defined.source f d ((h.bodies f).symm.trans hd)⟩
  rw [hwork]
  exact hsupplies.journal hs.work

/-- Asking for the tree of a source file. -/
theorem Analysis.Supplied.opened (hs : s.Supplied W code) {file : Path} (hfull : ∃ path, file = s.files.fullPath path)
    (hsource : file.isSourceFile) :
    (s.opened file).Supplied W code ∧ ∀ tree, s.openedTree file = .ok tree → Of file tree := by
  obtain ⟨path, rfl⟩ := hfull
  have hopening : W (s.opening (s.files.fullPath path)).work := hsupplies.journal hs.work
  exact ⟨⟨hsupplies.after (p := path) hopening hsource, hs.defined⟩, fun tree => hsupplies.tree (p := path) hopening hsource⟩

/-- The blocks that are entered belong to the code. -/
theorem History.supplied (h : History l e s t) (hcode : ∀ b ∈ entered e, b.Covered code Of)
    (hs : s.Supplied W code) (hl : Mark.AllIn code l) : t.Supplied W code ∧ ∀ b ∈ entered e, b.In code Of := by
  induction h with
  | aside same => exact ⟨hs.same hsupplies same, forall_mem_nil _⟩
  | trans _ _ ih ih' =>
    rw [entered_append] at hcode ⊢
    obtain ⟨hl, hl'⟩ := Mark.allIn_append.1 hl
    obtain ⟨hcode, hcode'⟩ := forall_mem_append.1 hcode
    obtain ⟨ht, he⟩ := ih hcode hs hl
    obtain ⟨hu, he'⟩ := ih' hcode' ht hl'
    exact ⟨hu, forall_mem_append.2 ⟨he, he'⟩⟩
  | @found s _ _ ids site there =>
    obtain ⟨references, scopes, heq⟩ := s.addReferences_eq site ids
    rw [heq]
    exact ⟨⟨hs.work, hs.defined⟩, forall_mem_nil _⟩
  | missed site absent => exact ⟨⟨hs.work, hs.defined⟩, forall_mem_nil _⟩
  | define d defaults scope =>
    exact ⟨⟨hs.work, hs.defined.addFun (hl _ (mem_singleton_self _)) rfl⟩, forall_mem_nil _⟩
  | cls d bases scope =>
    exact ⟨⟨hs.work, hs.defined.addClass (hl _ (mem_singleton_self _)) rfl⟩, forall_mem_nil _⟩
  | @report s code message span =>
    obtain ⟨problems, heq⟩ := s.report_eq (Diagnostic.error code message span)
    rw [heq]
    exact ⟨⟨hs.work, hs.defined⟩, forall_mem_nil _⟩
  | pass code span => exact ⟨hs, forall_mem_nil _⟩
  | @call s t f d key dir signature e body run ih =>
    obtain ⟨hbody, hcode⟩ := forall_mem_cons.1 hcode
    have hin : (Block.body d).In code Of := hs.defined.source f d body
    obtain ⟨ht, he⟩ := ih hcode ⟨hs.work, hs.defined.modifyFun fun _ => rfl⟩ (hin.marks hbody)
    exact ⟨⟨ht.work, ht.defined.modifyFun fun _ => rfl⟩, forall_mem_cons.2 ⟨hin, he⟩⟩
  | unread event faults full source =>
    have hopened := (hs.opened hsupplies full source).1
    exact ⟨⟨hsupplies.journal hopened.work, hopened.defined⟩, forall_mem_nil _⟩
  | load full source opens run ih =>
    obtain ⟨htree, hcode⟩ := forall_mem_cons.1 hcode
    obtain ⟨hopened, hof⟩ := hs.opened hsupplies full source
    have hin : (Block.file _ _).In code Of := hof _ opens
    obtain ⟨ht, he⟩ := ih hcode ⟨hopened.work, { hopened.defined with }⟩ (hin.marks htree)
    exact ⟨⟨ht.work, ht.defined⟩, forall_mem_cons.2 ⟨hin, he⟩⟩

end

/-- In the code are the given marks, all that the state has from definitions, and the files that the history
enters. -/
structure InCode (code : Code) (l : List Mark) (e : List Event) (s : Analysis) : Prop where
  marks : Mark.AllIn code l
  blocks : ∀ b ∈ entered e, b.Covered code fun _ _ => True
  defined : DefinedIn code s.types

namespace InCode

variable {code : Code} {l' : List Mark} {e' : List Event} {file : Path} {tree : Module}

/-- All code has whatever happens. -/
theorem all (e : List Event) (s : Analysis) : InCode .all [] e s := by
  refine ⟨Mark.allIn_nil, fun b _ => .of_all (fun _ _ _ _ _ => trivial) b, fun _ node _ => ?_, fun _ _ _ => trivial⟩
  exact ⟨⟨node, ⟨"", node⟩, [], [], [], []⟩, trivial, rfl⟩

theorem before (h : InCode code l (e ++ e') s) : InCode code l e s :=
  ⟨h.marks, fun b hb => h.blocks b (by simp [hb]), h.defined⟩

theorem first (h : InCode code (l ++ l') (e ++ e') s) : InCode code l e s :=
  { h.before with marks := (Mark.allIn_append.1 h.marks).1 }

theorem after (h : InCode code l e s) (history : History l e s t) : DefinedIn code t.types :=
  (history.supplied (W := fun _ => True) ⟨id, fun h _ => h, fun _ _ _ => trivial⟩ h.blocks ⟨trivial, h.defined⟩
    h.marks).1.defined

theorem rest (h : InCode code (l ++ l') (e ++ e') s) (first : History l e s t) : InCode code l' e' t :=
  ⟨(Mark.allIn_append.1 h.marks).2, fun b hb => h.blocks b (by simp [hb]), h.first.after first⟩

theorem call {f d} (h : InCode code [] (.enter (.body d) :: e) s) (body : (s.types.function f).body = .source d)
    (key : CallKey) (dir : Path) : InCode code (Block.body d).marks e (s.enterCall f key dir) := by
  have hin : (Block.body d).In code fun _ _ => True := h.defined.source f d body
  exact ⟨hin.marks trivial, (forall_mem_cons.1 h.blocks).2, h.defined.modifyFun fun _ => rfl⟩

theorem load (h : InCode code [] (.enter (.file file tree) :: e) s) :
    InCode code (Block.file file tree).marks e (s.begun file) := by
  obtain ⟨htree, hblocks⟩ := forall_mem_cons.1 h.blocks
  have hin : (Block.file file tree).In code fun _ _ => True := trivial
  exact ⟨hin.marks htree, hblocks, { h.defined with }⟩

/-- What happens once a file is left. -/
theorem loaded (h : InCode code [] (.enter (.file file tree) :: e ++ e') s)
    (run : History (Block.file file tree).marks e (s.begun file) t) : InCode code [] e' (s.ended file t) := by
  have hdefined : DefinedIn code t.types := h.before.load.after run
  exact ⟨Mark.allIn_nil, fun b hb => h.blocks b (by simp [hb]), hdefined⟩

end InCode

end TypeInfer
