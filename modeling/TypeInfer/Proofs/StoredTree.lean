/-
Stored forms are read back. A stored form is read exactly when it nests no deeper than the budget of
the reader and all its numbers have at most 64 bits; then the value that was stored comes back. For
syntax trees this goes by induction over the nodes.
-/
import TypeInfer.Proofs.JsonText
import TypeInfer.Proofs.Node
import TypeInfer.Syntax.Decode

namespace TypeInfer

open List

variable (m : Node) {items : List Json} {n : Nat} (d : Diagnostic)

namespace Json

variable {k spare : Nat} {names : List String}

mutual

/-- How many arrays and objects stand inside each other. -/
def nesting : Json → Nat
  | .arr items => nestingItems items + 1
  | .obj members => nestingMembers members + 1
  | .null | .bool _ | .num _ | .real _ | .str _ | .unpaired _ => 0

def nestingItems : List Json → Nat
  | [] => 0
  | item :: items => max (nesting item) (nestingItems items)

def nestingMembers : List (String × Json) → Nat
  | [] => 0
  | (_, value) :: members => max (nesting value) (nestingMembers members)

end

mutual

/-- All numbers have at most 64 bits. -/
def Fits : Json → Prop
  | .num n => n < UInt64.size
  | .arr items => FitsItems items
  | .obj members => FitsMembers members
  | .null | .bool _ | .real _ | .str _ | .unpaired _ => True

def FitsItems : List Json → Prop
  | [] => True
  | item :: items => Fits item ∧ FitsItems items

def FitsMembers : List (String × Json) → Prop
  | [] => True
  | (_, value) :: members => Fits value ∧ FitsMembers members

end

/-- A reader with the given budget takes the value. -/
def Readable (j : Json) (budget : Nat) : Prop := j.nesting ≤ budget ∧ j.Fits

variable {n : Nat} {items : List Json} {members : List (String × Json)}

section

attribute [local simp] Readable nesting Fits

@[simp] theorem readable_null : null.Readable n ↔ True := by simp

@[simp] theorem readable_bool {b} : (bool b).Readable n ↔ True := by simp

@[simp] theorem readable_str {s} : (str s).Readable n ↔ True := by simp

@[simp] theorem readable_num :
    (num k).Readable n ↔ k < UInt64.size := by simp

@[simp] theorem readable_arr_zero : (arr items).Readable 0 ↔ False := by simp

@[simp] theorem readable_obj_zero : (obj members).Readable 0 ↔ False := by simp

end

theorem readable_items : nestingItems items ≤ n ∧ FitsItems items ↔ ∀ i ∈ items, i.Readable n := by
  induction items with
  | nil => simp [nestingItems, FitsItems]
  | cons i items ih =>
    rw [forall_mem_cons, ← ih, nestingItems, FitsItems, Readable, Nat.max_le]
    exact and_and_and_comm

theorem readable_members : nestingMembers members ≤ n ∧ FitsMembers members ↔ ∀ m ∈ members, m.2.Readable n := by
  induction members with
  | nil => simp [nestingMembers, FitsMembers]
  | cons m members ih =>
    rw [forall_mem_cons, ← ih, nestingMembers, FitsMembers, Readable, Nat.max_le]
    exact and_and_and_comm

@[simp] theorem readable_arr : (arr items).Readable (n + 1) ↔ ∀ i ∈ items, i.Readable n := by
  rw [← readable_items, Readable, nesting, Fits, Nat.add_le_add_iff_right]

@[simp] theorem readable_obj : (obj members).Readable (n + 1) ↔ ∀ m ∈ members, m.2.Readable n := by
  rw [← readable_members, Readable, nesting, Fits, Nat.add_le_add_iff_right]

theorem rereadItems_eq (items : List Json) : rereadItems items = items.map reread := by
  induction items with
  | nil => rfl
  | cons i items ih => rw [rereadItems, ih, map_cons]

theorem rereadMembers_eq (members : List (String × Json)) :
    rereadMembers members = members.map fun m => (m.1, m.2.reread) := by
  induction members with
  | nil => rfl
  | cons m members ih => rw [rereadMembers, ih, map_cons]

/-- The stored form of a value: a reader takes it exactly when its budget lets it,
and gives the value. -/
def ReadsAs {α : Type} (read : Nat → Json → Option α) (j : Json) (a : α) : Prop :=
  ∀ n b, read n j.reread = some b ↔ j.Readable n ∧ a = b

theorem fields?_reread_of_subset (keys : List String) (h : members.map Prod.fst = keys)
    (hsub : keys ⊆ names) (hn : keys.Nodup) :
    (obj members).reread.fields? names spare = some (members.map fun m => (m.1, m.2.reread)) := by
  subst h
  have hall : ∀ m ∈ members.map fun m => (m.1, m.2.reread), names.contains m.1 = true := by
    intro m hm
    obtain ⟨m', hm', rfl⟩ := mem_map.1 hm
    exact contains_iff_mem.2 (hsub (mem_map.2 ⟨m', hm', rfl⟩))
  have hnodup : ((members.map fun m => (m.1, m.2.reread)).map Prod.fst).Nodup := by
    simpa [map_map, Function.comp_def] using hn
  rw [reread, rereadMembers_eq, fields?]
  simp only [filter_eq_self.2 hall]
  rw [if_pos hnodup]

/-- An object with just the fields of a record gives them. -/
theorem fields?_reread (h : members.map Prod.fst = names) (hn : names.Nodup) :
    (obj members).reread.fields? names spare = some (members.map fun m => (m.1, m.2.reread)) :=
  fields?_reread_of_subset names h (fun _ hk => hk) hn

@[simp] theorem nat?_rereadNum_bind {α : Type} {f : Nat → Option α} {c : α} :
    (rereadNum k).nat?.bind f = some c ↔ k < UInt64.size ∧ f k = some c := by
  rw [rereadNum]
  split
  · simp_all [nat?]
  · simp only [nat?, Option.bind_none, reduceCtorEq, false_iff]
    omega

@[simp] theorem reread_str (s : String) : (str s).reread = str s := by rw [reread]

@[simp] theorem reread_bool (b : Bool) : (bool b).reread = bool b := by rw [reread]

@[simp] theorem reread_num (n : Nat) : (num n).reread = rereadNum n := by rw [reread]

/-! ### Parts of records -/

section

variable {α β : Type} {read : Nat → Json → Option α} {j : Json} {a : α} {fields : Fields}
  {toJson : α → Json} {as : List α}

theorem ReadsAs.bind (h : ReadsAs read j a) {n : Nat} {f : α → Option β} {c : β} :
    (read n j.reread).bind f = some c ↔ j.Readable n ∧ f a = some c := by
  rw [Option.bind_eq_some_iff]
  constructor
  · rintro ⟨b, hb, hc⟩
    obtain ⟨hj, rfl⟩ := (h n b).1 hb
    exact ⟨hj, hc⟩
  · rintro ⟨hj, hc⟩
    exact ⟨a, (h n a).2 ⟨hj, rfl⟩, hc⟩

/-- A record is read back when its fields are. -/
theorem ReadsAs.record {members : List (String × Json)} (hzero : ∀ j, read 0 j = none)
    (h : ∀ n b, read (n + 1) (obj members).reread = some b ↔ (∀ m ∈ members, m.2.Readable n) ∧ a = b) :
    ReadsAs read (.obj members) a := by
  intro n b
  cases n with
  | zero => simp [hzero]
  | succ n => rw [h, readable_obj]

/-- What a field that may be null gives. -/
def optional? (read : Json → Option α) : Json → Option (Option α)
  | .null => some none
  | j => (read j).map some

@[simp] theorem get_cons {key name : String} {read : Json → Option α} :
    Fields.get ((key, j) :: fields) name read = if name = key then read j else Fields.get fields name read := by
  by_cases h : name = key
  · simp [Fields.get, h]
  · have hb : (name == key) = false := by simpa using h
    simp [Fields.get, lookup_cons, h, hb]

@[simp] theorem get?_cons {key name : String} {read : Json → Option α} :
    Fields.get? ((key, j) :: fields) name read =
      if name = key then optional? read j else Fields.get? fields name read := by
  by_cases h : name = key
  · cases j <;> simp [Fields.get?, h, optional?]
  · have hb : (name == key) = false := by simpa using h
    simp [Fields.get?, lookup_cons, h, hb]

@[simp] theorem get?_nil {name : String} {read : Json → Option α} : Fields.get? [] name read = some none := rfl

/-- The form of a value that may be absent. -/
def orNull (toJson : α → Json) (o : Option α) : Json := (o.map toJson).getD .null

theorem ReadsAs.optional {o} (h : ∀ a ∈ o, ReadsAs read (toJson a) a)
    (hobj : ∀ a, ∃ members, toJson a = .obj members) :
    ReadsAs (fun n => optional? (read n)) (orNull toJson o) o := by
  intro n b
  cases o with
  | none => simp [orNull, reread, optional?]
  | some a =>
    obtain ⟨members, ha⟩ := hobj a
    have hread := h a rfl n
    simp only [orNull, Option.map_some, Option.getD_some, ha, reread, optional?] at hread ⊢
    rw [Option.map_eq_some_iff]
    constructor
    · rintro ⟨c, hc, rfl⟩
      obtain ⟨hj, rfl⟩ := (hread c).1 hc
      exact ⟨hj, rfl⟩
    · rintro ⟨hj, rfl⟩
      exact ⟨a, (hread a).2 ⟨hj, rfl⟩, rfl⟩

theorem mapM_reads (h : ∀ a ∈ as, ReadsAs read (toJson a) a) {n : Nat} {bs : List α} :
    ((as.map toJson).map reread).mapM (read n) = some bs ↔
      (∀ i ∈ as.map toJson, i.Readable n) ∧ as = bs := by
  induction as generalizing bs with
  | nil => simp
  | cons a as ih =>
    obtain ⟨ha, has⟩ := forall_mem_cons.1 h
    simp only [map_cons, mapM_cons, Option.bind_eq_bind, ha.bind, forall_mem_cons,
      Option.bind_eq_some_iff, ih has, Option.pure_def, Option.some.injEq]
    constructor
    · rintro ⟨hj, cs, ⟨hall, rfl⟩, rfl⟩
      exact ⟨⟨hj, hall⟩, rfl⟩
    · rintro ⟨⟨hj, hall⟩, rfl⟩
      exact ⟨hj, as, ⟨hall, rfl⟩, rfl⟩

theorem ReadsAs.list {readAll : Nat → Json → Option (List α)}
    (hzero : ∀ items, readAll 0 (.arr items) = none)
    (hsucc : ∀ n items, readAll (n + 1) (.arr items) = items.mapM (read n))
    (h : ∀ a ∈ as, ReadsAs read (toJson a) a) : ReadsAs readAll (.arr (as.map toJson)) as := by
  intro n b
  rw [reread, rereadItems_eq]
  cases n with
  | zero => simp [hzero]
  | succ n => rw [hsucc, mapM_reads h, readable_arr]

end

end Json

open Json

/-! ### Leaves -/

section

variable {β : Type} {n : Nat} {c : β} {s : Span} {P : Node → Prop} (e : Expr) (es : List Expr)
  {tag : String} {fields : List (String × Json)} (op : CmpOperator)

theorem Span.readsAs (s : Span) : ReadsAs Span.ofJson? s.toJson s := by
  obtain ⟨⟨file⟩, start, stop, startLine, startCol, endLine, endCol⟩ := s
  refine ReadsAs.record (fun _ => rfl) fun n b => ?_
  rw [Span.ofJson?, fields?_reread (by rfl) (by decide)]
  simp [str?, and_assoc]

@[simp] theorem Span.bind_ofJson? {f : Span → Option β} :
    (Span.ofJson? n s.toJson.reread).bind f = some c ↔ s.toJson.Readable n ∧ f s = some c :=
  s.readsAs.bind

theorem Ident.readsAs (i : Ident) : ReadsAs Ident.ofJson? i.toJson i := by
  obtain ⟨name, span⟩ := i
  refine ReadsAs.record (fun _ => rfl) fun n b => ?_
  rw [Ident.ofJson?, fields?_reread (by rfl) (by decide)]
  simp [str?]

@[simp] theorem Ident.bind_ofJson? {i : Ident} {f : Ident → Option β} :
    (Ident.ofJson? n i.toJson.reread).bind f = some c ↔ i.toJson.Readable n ∧ f i = some c :=
  i.readsAs.bind

@[simp] theorem Ident.bind_optional? {o : Option Ident} {f : Option Ident → Option β} :
    (optional? (Ident.ofJson? n) (orNull Ident.toJson o).reread).bind f = some c ↔
      (orNull Ident.toJson o).Readable n ∧ f o = some c :=
  (ReadsAs.optional (fun i _ => i.readsAs) fun _ => ⟨_, rfl⟩).bind

@[simp] theorem Ident.bind_list? {is : List Ident} {f : List Ident → Option β} :
    (Json.list? Ident.ofJson? n (Json.arr (is.map Ident.toJson)).reread).bind f = some c ↔
      (Json.arr (is.map Ident.toJson)).Readable n ∧ f is = some c :=
  (ReadsAs.list (fun _ => rfl) (fun _ _ => rfl) fun i _ => i.readsAs).bind

theorem Alias.readsAs (a : Alias) : ReadsAs Alias.ofJson? a.toJson a := by
  obtain ⟨span, name, asName⟩ := a
  refine ReadsAs.record (fun _ => rfl) fun n b => ?_
  rw [Alias.ofJson?, ← orNull, fields?_reread (by rfl) (by decide)]
  simp [and_assoc]

@[simp] theorem Alias.bind_list? {as : List Alias} {f : List Alias → Option β} :
    (Json.list? Alias.ofJson? n (Json.arr (as.map Alias.toJson)).reread).bind f = some c ↔
      (Json.arr (as.map Alias.toJson)).Readable n ∧ f as = some c :=
  (ReadsAs.list (fun _ => rfl) (fun _ _ => rfl) fun a _ => a.readsAs).bind

/-- An object with one member is a choice. -/
@[simp] theorem choice?_reread (tag : String) (j : Json) : (obj [(tag, j)]).reread.choice? = some (tag, j.reread) := by
  rw [reread, rereadMembers, rereadMembers, choice?]

theorem ImportNames.readsAs (i : ImportNames) : ReadsAs ImportNames.ofJson? i.toJson i := by
  intro n b
  cases n with
  | zero => cases i <;> simp [ImportNames.ofJson?, ImportNames.toJson]
  | succ n =>
    cases i <;>
      simp [ImportNames.ofJson?, ImportNames.toJson]

@[simp] theorem ImportNames.bind_ofJson? {i : ImportNames} {f : ImportNames → Option β} :
    (ImportNames.ofJson? n i.toJson.reread).bind f = some c ↔ i.toJson.Readable n ∧ f i = some c :=
  i.readsAs.bind

/-! ### Nodes -/

/-- The stored form of the node is read back. -/
def Node.Stored : Node → Prop
  | .expr e => ReadsAs Expr.ofJson? e.toJson e
  | .stmt s => ReadsAs Stmt.ofJson? s.toJson s
  | .arg a => ReadsAs Arg.ofJson? a.toJson a
  | .item i => ReadsAs DictItem.ofJson? i.toJson i
  | .clause c => ReadsAs Comprehension.ofJson? c.toJson c
  | .param p => ReadsAs Param.ofJson? p.toJson p
  | .function d => ReadsAs FunctionDef.ofJson? d.toJson d
  | .cls d => ReadsAs ClassDef.ofJson? d.toJson d
  | .keyword k => ReadsAs ClassKeyword.ofJson? k.toJson k
  | .handler h => ReadsAs ExceptHandler.ofJson? h.toJson h
  | .withItem i => ReadsAs WithItem.ofJson? i.toJson i
  | .ident i => ReadsAs Ident.ofJson? i.toJson i
  | .imported a => ReadsAs Alias.ofJson? a.toJson a
  | .names i => ReadsAs ImportNames.ofJson? i.toJson i

/-- All of the nodes have the property. -/
def Node.All (P : Node → Prop) (ns : List Node) : Prop := ∀ n ∈ ns, P n

theorem Node.all_nil : All P [] ↔ True := by simp [All]

theorem Node.all_cons {m : Node} {ns : List Node} : All P (m :: ns) ↔ P m ∧ All P ns := by
  simp [All]

theorem Node.all_append {ms ns : List Node} : All P (ms ++ ns) ↔ All P ms ∧ All P ns := by
  simp only [All, forall_mem_append]

theorem Node.ofExprs_cons : ofExprs (e :: es) = expr e :: ofExprs es := rfl

theorem Node.ofExprs_nil : ofExprs [] = [] := rfl

/-- A list of forms is the list of the forms. -/
theorem Json.forms_eq {α : Type} {toJson : α → Json} {all : List α → List Json} (hnil : all [] = [])
    (hcons : ∀ a as, all (a :: as) = toJson a :: all as) (as : List α) : all as = as.map toJson := by
  induction as with
  | nil => exact hnil
  | cons a as ih => rw [hcons, ih, map_cons]

@[simp] theorem exprsToJson_eq : exprsToJson es = es.map Expr.toJson :=
  forms_eq rfl (fun _ _ => rfl) es

@[simp] theorem optionToJson_eq (o : Option Expr) : optionToJson o = orNull Expr.toJson o := by
  cases o <;> rfl

theorem Expr.toJson_eq_obj : ∃ members, e.toJson = .obj members := by
  cases e <;> exact ⟨_, rfl⟩

@[simp] theorem Expr.bind_ofJson? {e : Expr} (h : (Node.expr e).Stored) {f : Expr → Option β} :
    (Expr.ofJson? n e.toJson.reread).bind f = some c ↔ e.toJson.Readable n ∧ f e = some c :=
  ReadsAs.bind h

@[simp] theorem Expr.bind_optional? {o : Option Expr} (h : Node.All Node.Stored (Node.ofExpr? o))
    {f : Option Expr → Option β} :
    (optional? (Expr.ofJson? n) (orNull Expr.toJson o).reread).bind f = some c ↔
      (orNull Expr.toJson o).Readable n ∧ f o = some c :=
  (ReadsAs.optional (fun _ he => h _ (mem_map_of_mem (Option.mem_toList.2 he))) Expr.toJson_eq_obj).bind

@[simp] theorem Expr.bind_listOfJson? {es : List Expr} (h : Node.All Node.Stored (Node.ofExprs es))
    {f : List Expr → Option β} :
    (Expr.listOfJson? n (Json.arr (es.map Expr.toJson)).reread).bind f = some c ↔
      (Json.arr (es.map Expr.toJson)).Readable n ∧ f es = some c :=
  (ReadsAs.list (fun _ => rfl) (fun _ _ => rfl) fun _ hmem => h _ (mem_map_of_mem hmem)).bind

theorem Expr.readsAs_node {e : Expr}
    (h : ∀ n b, Expr.ofContent? (n + 1) tag (Json.obj (("span", s.toJson) :: fields)).reread = some b ↔ s.toJson.Readable n ∧ (∀ m ∈ fields, m.2.Readable n) ∧ e = b) :
    ReadsAs Expr.ofJson? (.node tag s fields) e := by
  intro n b
  rw [Json.node]
  cases n with
  | zero => simp [Expr.ofJson?]
  | succ n =>
    rw [Expr.ofJson?, choice?_reread, readable_obj]
    cases n with
    | zero => simp [Expr.ofContent?]
    | succ n => simp [h, and_assoc]

@[simp] theorem argsToJson_eq (as : List Arg) : argsToJson as = as.map Arg.toJson :=
  forms_eq rfl (fun _ _ => rfl) as

@[simp] theorem Arg.bind_listOfJson? {as : List Arg} (h : Node.All Node.Stored (as.map Node.arg))
    {f : List Arg → Option β} :
    (Arg.listOfJson? n (Json.arr (as.map Arg.toJson)).reread).bind f = some c ↔
      (Json.arr (as.map Arg.toJson)).Readable n ∧ f as = some c :=
  (ReadsAs.list (fun _ => rfl) (fun _ _ => rfl) fun _ hmem => h _ (mem_map_of_mem hmem)).bind

@[simp] theorem itemsToJson_eq (is : List DictItem) : itemsToJson is = is.map DictItem.toJson :=
  forms_eq rfl (fun _ _ => rfl) is

@[simp] theorem DictItem.bind_listOfJson? {is : List DictItem} (h : Node.All Node.Stored (is.map Node.item))
    {f : List DictItem → Option β} :
    (DictItem.listOfJson? n (Json.arr (is.map DictItem.toJson)).reread).bind f = some c ↔
      (Json.arr (is.map DictItem.toJson)).Readable n ∧ f is = some c :=
  (ReadsAs.list (fun _ => rfl) (fun _ _ => rfl) fun _ hmem => h _ (mem_map_of_mem hmem)).bind

@[simp] theorem clausesToJson_eq (ks : List Comprehension) : clausesToJson ks = ks.map Comprehension.toJson :=
  forms_eq rfl (fun _ _ => rfl) ks

@[simp] theorem Comprehension.bind_listOfJson? {ks : List Comprehension} (h : Node.All Node.Stored (Node.ofClauses ks))
    {f : List Comprehension → Option β} :
    (Comprehension.listOfJson? n (Json.arr (ks.map Comprehension.toJson)).reread).bind f = some c ↔
      (Json.arr (ks.map Comprehension.toJson)).Readable n ∧ f ks = some c :=
  (ReadsAs.list (fun _ => rfl) (fun _ _ => rfl) fun _ hmem => h _ (mem_map_of_mem hmem)).bind

@[simp] theorem paramsToJson_eq (ps : List Param) : paramsToJson ps = ps.map Param.toJson :=
  forms_eq rfl (fun _ _ => rfl) ps

@[simp] theorem Param.bind_listOfJson? {ps : List Param} (h : Node.All Node.Stored (ps.map Node.param))
    {f : List Param → Option β} :
    (Param.listOfJson? n (Json.arr (ps.map Param.toJson)).reread).bind f = some c ↔
      (Json.arr (ps.map Param.toJson)).Readable n ∧ f ps = some c :=
  (ReadsAs.list (fun _ => rfl) (fun _ _ => rfl) fun _ hmem => h _ (mem_map_of_mem hmem)).bind

@[simp] theorem keywordsToJson_eq (ks : List ClassKeyword) : keywordsToJson ks = ks.map ClassKeyword.toJson :=
  forms_eq rfl (fun _ _ => rfl) ks

@[simp] theorem ClassKeyword.bind_listOfJson? {ks : List ClassKeyword} (h : Node.All Node.Stored (ks.map Node.keyword))
    {f : List ClassKeyword → Option β} :
    (ClassKeyword.listOfJson? n (Json.arr (ks.map ClassKeyword.toJson)).reread).bind f = some c ↔
      (Json.arr (ks.map ClassKeyword.toJson)).Readable n ∧ f ks = some c :=
  (ReadsAs.list (fun _ => rfl) (fun _ _ => rfl) fun _ hmem => h _ (mem_map_of_mem hmem)).bind

@[simp] theorem handlersToJson_eq (xs : List ExceptHandler) : handlersToJson xs = xs.map ExceptHandler.toJson :=
  forms_eq rfl (fun _ _ => rfl) xs

@[simp] theorem ExceptHandler.bind_listOfJson? {xs : List ExceptHandler} (h : Node.All Node.Stored (xs.map Node.handler))
    {f : List ExceptHandler → Option β} :
    (ExceptHandler.listOfJson? n (Json.arr (xs.map ExceptHandler.toJson)).reread).bind f = some c ↔
      (Json.arr (xs.map ExceptHandler.toJson)).Readable n ∧ f xs = some c :=
  (ReadsAs.list (fun _ => rfl) (fun _ _ => rfl) fun _ hmem => h _ (mem_map_of_mem hmem)).bind

@[simp] theorem withItemsToJson_eq (is : List WithItem) : withItemsToJson is = is.map WithItem.toJson :=
  forms_eq rfl (fun _ _ => rfl) is

@[simp] theorem WithItem.bind_listOfJson? {is : List WithItem} (h : Node.All Node.Stored (is.map Node.withItem))
    {f : List WithItem → Option β} :
    (WithItem.listOfJson? n (Json.arr (is.map WithItem.toJson)).reread).bind f = some c ↔
      (Json.arr (is.map WithItem.toJson)).Readable n ∧ f is = some c :=
  (ReadsAs.list (fun _ => rfl) (fun _ _ => rfl) fun _ hmem => h _ (mem_map_of_mem hmem)).bind

@[simp] theorem stmtsToJson_eq (ss : List Stmt) : stmtsToJson ss = ss.map Stmt.toJson :=
  forms_eq rfl (fun _ _ => rfl) ss

@[simp] theorem Stmt.bind_listOfJson? {ss : List Stmt} (h : Node.All Node.Stored (Node.ofStmts ss))
    {f : List Stmt → Option β} :
    (Stmt.listOfJson? n (Json.arr (ss.map Stmt.toJson)).reread).bind f = some c ↔
      (Json.arr (ss.map Stmt.toJson)).Readable n ∧ f ss = some c :=
  (ReadsAs.list (fun _ => rfl) (fun _ _ => rfl) fun _ hmem => h _ (mem_map_of_mem hmem)).bind

@[simp] theorem FunctionDef.bind_ofJson? {d : FunctionDef} (h : (Node.function d).Stored)
    {f : FunctionDef → Option β} :
    (FunctionDef.ofJson? n d.toJson.reread).bind f = some c ↔ d.toJson.Readable n ∧ f d = some c :=
  ReadsAs.bind h

@[simp] theorem Operator.ofLabel?_label (op : Operator) : Operator.ofLabel? op.label = some op := by
  cases op <;> rfl

@[simp] theorem UnaryOperator.ofLabel?_label (op : UnaryOperator) : UnaryOperator.ofLabel? op.label = some op := by
  cases op <;> rfl

@[simp] theorem BoolOperator.ofLabel?_label (op : BoolOperator) : BoolOperator.ofLabel? op.label = some op := by
  cases op <;> rfl

@[simp] theorem CmpOperator.ofLabel?_label : CmpOperator.ofLabel? op.label = some op := by
  cases op <;> rfl

@[simp] theorem ParamKind.ofLabel?_label (k : ParamKind) : ParamKind.ofLabel? k.label = some k := by
  cases k <;> rfl

@[simp] theorem labelled?_str {α : Type} {ofLabel? : String → Option α} {s : String} :
    Json.labelled? ofLabel? n (.str s) = ofLabel? s := rfl

theorem CmpOperator.readsAs : ReadsAs (Json.labelled? CmpOperator.ofLabel?) (.str op.label) op := by
  intro n b
  rw [reread_str, labelled?_str, CmpOperator.ofLabel?_label]
  simp

@[simp] theorem CmpOperator.bind_list? {ops : List CmpOperator} {f : List CmpOperator → Option β} :
    (Json.list? (Json.labelled? CmpOperator.ofLabel?) n
      (Json.arr (ops.map fun op => .str op.label)).reread).bind f = some c ↔
      (Json.arr (ops.map fun op => .str op.label)).Readable n ∧ f ops = some c :=
  (ReadsAs.list (fun _ => rfl) (fun _ _ => rfl) fun op _ => op.readsAs).bind

theorem Node.stored_expr (h : All Stored (Node.expr e).children) : (Node.expr e).Stored := by
  cases e <;>
    simp only [children, belowExpr, all_nil, all_cons, all_append, ofExprs_cons,
      ofExprs_nil, and_true] at h <;>
    refine Expr.readsAs_node fun n b => ?_ <;>
    simp only [Expr.ofContent?] <;>
    rw [fields?_reread (by rfl) (by decide)] <;>
    simp [str?, bool?, h, and_assoc]

theorem Stmt.readsAs_node {x : Stmt} (hfunction : tag ≠ "FunctionDef") (hcls : tag ≠ "ClassDef")
    (h : ∀ n b, Stmt.ofContent? (n + 1) tag (Json.obj (("span", s.toJson) :: fields)).reread = some b ↔ s.toJson.Readable n ∧ (∀ m ∈ fields, m.2.Readable n) ∧ x = b) :
    ReadsAs Stmt.ofJson? (.node tag s fields) x := by
  intro n b
  rw [Json.node]
  cases n with
  | zero => simp [Stmt.ofJson?]
  | succ n =>
    rw [Stmt.ofJson?, choice?_reread, readable_obj]
    cases n with
    | zero => simp [Stmt.ofContent?]
    | succ n => simp [h, and_assoc]

theorem Node.stored_stmt (s : Stmt) (h : All Stored (Node.stmt s).children) : (Node.stmt s).Stored := by
  cases s with
  | function d =>
    intro n b
    simp only [children, belowStmt, all_cons, all_nil, and_true] at h
    rw [Stmt.toJson]
    cases n with
    | zero => simp [Stmt.ofJson?]
    | succ n => simp [Stmt.ofJson?, ReadsAs.bind h]
  | classDef d =>
    intro n b
    simp only [children, belowStmt, all_cons, all_nil, and_true] at h
    rw [Stmt.toJson]
    cases n with
    | zero => simp [Stmt.ofJson?]
    | succ n => simp [Stmt.ofJson?, ReadsAs.bind h]
  | _ =>
    simp only [children, belowStmt, all_nil, all_cons, all_append, ofExprs_cons,
      ofExprs_nil, and_true] at h
    refine Stmt.readsAs_node (by decide) (by decide) fun n b => ?_
    simp only [Stmt.ofContent?]
    rw [fields?_reread (by rfl) (by decide)]
    simp [bool?, h, and_assoc]

theorem Node.stored_arg (a : Arg) (h : All Stored (Node.arg a).children) : (Node.arg a).Stored := by
  intro n b
  cases n with
  | zero => cases a <;> simp [Arg.ofJson?, Arg.toJson]
  | succ n =>
    cases a with
    | keyword name value =>
      simp only [children, all_cons] at h
      rw [Arg.ofJson?, Arg.toJson, choice?_reread, readable_obj]
      cases n with
      | zero => simp [Arg.keywordOfJson?]
      | succ n =>
        simp only [Option.bind_eq_bind, Option.bind_some, Arg.keywordOfJson?]
        rw [fields?_reread (by rfl) (by decide)]
        simp [h, and_assoc]
    | _ =>
      simp only [children, all_cons] at h
      simp [Arg.ofJson?, Arg.toJson, h]

theorem Node.stored_of_children (m : Node) (h : All Stored m.children) : m.Stored := by
  cases m with
  | expr e => exact stored_expr e h
  | stmt s => exact stored_stmt s h
  | arg a => exact stored_arg a h
  | ident i => exact i.readsAs
  | imported a => exact a.readsAs
  | names i => exact i.readsAs
  | item i =>
    obtain ⟨key, value⟩ := i
    simp only [children, all_cons, all_append] at h
    refine ReadsAs.record (fun _ => rfl) fun n b => ?_
    rw [DictItem.ofJson?, fields?_reread (by rfl) (by decide)]
    simp [h, and_assoc]
  | clause k =>
    obtain ⟨target, iter, conditions, isAsync⟩ := k
    simp only [children, all_cons, ofExprs_cons] at h
    refine ReadsAs.record (fun _ => rfl) fun n b => ?_
    rw [Comprehension.ofJson?, fields?_reread (by rfl) (by decide)]
    simp [bool?, h, and_assoc]
  | param p =>
    obtain ⟨name, kind, default, annotation⟩ := p
    simp only [children, all_cons, all_append] at h
    refine ReadsAs.record (fun _ => rfl) fun n b => ?_
    rw [Param.ofJson?, fields?_reread (by rfl) (by decide)]
    simp [h, and_assoc]
  | function d =>
    obtain ⟨span, name, params, body, decorators, returns, isAsync⟩ := d
    simp only [children, all_cons, all_append] at h
    refine ReadsAs.record (fun _ => rfl) fun n b => ?_
    rw [FunctionDef.ofJson?, fields?_reread (by rfl) (by decide)]
    simp [bool?, h, and_assoc]
  | cls d =>
    obtain ⟨span, name, bases, keywords, body, decorators⟩ := d
    simp only [children, all_cons, all_append] at h
    refine ReadsAs.record (fun _ => rfl) fun n b => ?_
    rw [ClassDef.ofJson?, fields?_reread (by rfl) (by decide)]
    simp [h, and_assoc]
  | keyword k =>
    obtain ⟨name, value⟩ := k
    simp only [children, all_cons] at h
    refine ReadsAs.record (fun _ => rfl) fun n b => ?_
    rw [ClassKeyword.ofJson?, fields?_reread (by rfl) (by decide)]
    simp [h, and_assoc]
  | handler x =>
    obtain ⟨span, type, name, body⟩ := x
    simp only [children, all_append] at h
    refine ReadsAs.record (fun _ => rfl) fun n b => ?_
    rw [ExceptHandler.ofJson?, ← orNull, fields?_reread (by rfl) (by decide)]
    simp [h, and_assoc]
  | withItem i =>
    obtain ⟨context, target⟩ := i
    simp only [children, all_cons] at h
    refine ReadsAs.record (fun _ => rfl) fun n b => ?_
    rw [WithItem.ofJson?, fields?_reread (by rfl) (by decide)]
    simp [h, and_assoc]

end

theorem Node.stored : m.Stored := m.induction stored_of_children

theorem Module.readsAs (m : Module) : ReadsAs Module.ofJson? m.toJson m := by
  obtain ⟨span, ⟨file⟩, body⟩ := m
  have hbody : Node.All Node.Stored (Node.ofStmts body) := fun c _ => c.stored
  refine ReadsAs.record (fun _ => rfl) fun n b => ?_
  rw [Module.ofJson?, fields?_reread (by rfl) (by decide)]
  simp [str?, hbody, and_assoc]

/-! ### Stored forms are plain -/

@[simp] theorem Json.plain_arr : (arr items).Plain ↔ ∀ i ∈ items, i.Plain := by
  rw [Plain]
  induction items with
  | nil => simp [PlainItems]
  | cons i items ih => rw [PlainItems, ih, forall_mem_cons]

@[simp] theorem Json.plain_obj {members} : (obj members).Plain ↔ ∀ m ∈ members, m.2.Plain := by
  rw [Plain]
  induction members with
  | nil => simp [PlainMembers]
  | cons m members ih => rw [PlainMembers, ih, forall_mem_cons]

@[simp] theorem Json.plain_orNull {α : Type} {toJson : α → Json} {o : Option α} :
    (orNull toJson o).Plain ↔ ∀ a ∈ o, (toJson a).Plain := by
  cases o <;> simp [orNull, Plain]

@[simp] theorem Json.plain_str (s : String) : (str s).Plain := by simp [Plain]

@[simp] theorem Json.plain_bool (b : Bool) : (bool b).Plain := by simp [Plain]

@[simp] theorem Json.plain_num (n : Nat) : (num n).Plain := by simp [Plain]

@[simp] theorem Span.plain_toJson (s : Span) : s.toJson.Plain := by
  simp [Span.toJson]

@[simp] theorem Ident.plain_toJson (i : Ident) : i.toJson.Plain := by
  simp [Ident.toJson]

@[simp] theorem Alias.plain_toJson (a : Alias) : a.toJson.Plain := by
  rw [Alias.toJson, ← orNull]
  simp

theorem ImportNames.plain_toJson (i : ImportNames) : i.toJson.Plain := by
  cases i <;> simp [ImportNames.toJson]

/-- The stored form of a node. -/
def Node.form : Node → Json
  | .expr e => e.toJson
  | .stmt s => s.toJson
  | .arg a => a.toJson
  | .item i => i.toJson
  | .clause k => k.toJson
  | .param p => p.toJson
  | .function d => d.toJson
  | .cls d => d.toJson
  | .keyword k => k.toJson
  | .handler x => x.toJson
  | .withItem i => i.toJson
  | .ident i => i.toJson
  | .imported a => a.toJson
  | .names i => i.toJson

theorem Node.plain_of_children (h : ∀ c ∈ m.children, c.form.Plain) : m.form.Plain := by
  cases m with
  | expr e =>
    cases e <;>
      simp only [children, belowExpr, ofExpr?, ofExprs, ofClauses, forall_mem_append,
        forall_mem_cons, forall_mem_map, map_cons, Option.mem_toList, form] at h <;>
      simp +contextual [form, Expr.toJson, Json.node, h]
  | stmt s =>
    cases s <;>
      simp only [children, belowStmt, ofExpr?, ofExprs, ofStmts, ofIdents, forall_mem_append,
        forall_mem_cons, forall_mem_map, map_cons, Option.mem_toList, form] at h <;>
      simp +contextual [form, Stmt.toJson, Json.node, h]
  | ident i => exact i.plain_toJson
  | imported a => exact a.plain_toJson
  | names i => exact i.plain_toJson
  | handler x =>
    obtain ⟨span, type, name, body⟩ := x
    simp only [children, ofExpr?, ofExprs, ofStmts, forall_mem_append, forall_mem_map,
      Option.mem_toList, form] at h
    rw [form, ExceptHandler.toJson, ← orNull]
    simp +contextual [h]
  | _ m =>
    cases m <;>
      simp only [children, ofExpr?, ofExprs, ofStmts, forall_mem_append, forall_mem_cons,
        forall_mem_map, map_cons, Option.mem_toList, form] at h <;>
      simp +contextual [form, Arg.toJson, DictItem.toJson, Comprehension.toJson, Param.toJson, FunctionDef.toJson, ClassDef.toJson, ClassKeyword.toJson, WithItem.toJson, h]

theorem Node.plain_form : m.form.Plain := m.induction plain_of_children

theorem Module.plain_toJson (m : Module) : m.toJson.Plain := by
  have hbody : ∀ s ∈ m.body, s.toJson.Plain := fun s _ => (Node.stmt s).plain_form
  simpa [Module.toJson, plain_obj, plain_arr, plain_str, stmtsToJson_eq, Span.plain_toJson] using hbody

/-- Whatever a tree is read back as is the tree itself. -/
theorem Module.ofText?_toText_eq_some {m m'} :
    Module.ofText? m.toText = some m' ↔ m.toJson.Readable nestingLimit ∧ m = m' := by
  rw [Module.ofText?, Module.toText, parse?_render m.plain_toJson, Option.bind_eq_bind, Option.bind_some]
  exact m.readsAs nestingLimit m'

/-! ### Diagnostics -/

@[simp] theorem Severity.ofLabel?_label (s : Severity) : Severity.ofLabel? s.label = some s := by
  cases s <;> rfl

@[simp] theorem Span.bind_optional? {β : Type} {c : β} {s : Span} {f : Option Span → Option β} :
    (optional? (Span.ofJson? n) s.toJson.reread).bind f = some c ↔
      s.toJson.Readable n ∧ f (some s) = some c :=
  (ReadsAs.optional (o := some s) (fun s _ => s.readsAs) fun _ => ⟨_, rfl⟩).bind

theorem Diagnostic.note_readsAs (x : Note) : ReadsAs noteOfJson? (noteToJson x) x := by
  obtain ⟨message, span⟩ := x
  refine ReadsAs.record (fun _ => rfl) fun n b => ?_
  cases span with
  | none =>
    rw [noteOfJson?, fields?_reread_of_subset ["message"] (by rfl) (by decide) (by decide)]
    simp [str?]
  | some s =>
    rw [noteOfJson?, fields?_reread (by rfl) (by decide)]
    simp [str?]

@[simp] theorem Diagnostic.bind_notes {β : Type} {c : β} {notes : List Note}
    {f : List Note → Option β} :
    (Json.list? noteOfJson? n (Json.arr (notes.map noteToJson)).reread).bind f = some c ↔
      (Json.arr (notes.map noteToJson)).Readable n ∧ f notes = some c :=
  (ReadsAs.list (fun _ => rfl) (fun _ _ => rfl) fun x _ => note_readsAs x).bind

@[simp] theorem Diagnostic.severityOfJson?_label (s : Severity) :
    severityOfJson? n (.str s.label) = some s := by
  rw [severityOfJson?, label?, Option.bind_eq_bind, Option.bind_some, Severity.ofLabel?_label]

@[simp] theorem Span.not_readable_zero (s : Span) : s.toJson.Readable 0 ↔ False := readable_obj_zero

theorem Diagnostic.toJson_of_notes {d : Diagnostic} (h : d.notes ≠ []) :
    d.toJson = .obj [("code", .str d.code), ("severity", .str d.severity.label),
      ("message", .str d.message), ("span", d.span.toJson), ("notes", .arr (d.notes.map noteToJson))] := by
  simp [Diagnostic.toJson, h]

theorem Diagnostic.readsAs : ReadsAs Diagnostic.ofJson? d.toJson d := by
  obtain ⟨code, severity, message, span, notes⟩ := d
  by_cases h : notes = []
  · subst h
    refine ReadsAs.record (fun _ => rfl) fun n b => ?_
    rw [Diagnostic.ofJson?, fields?_reread_of_subset ["code", "severity", "message", "span"] (by rfl)
      (by decide) (by decide)]
    cases n with
    | zero =>
      simp [str?]
    | succ n =>
      simp [str?, lookup_cons, list?]
  · rw [toJson_of_notes h]
    refine ReadsAs.record (fun _ => rfl) fun n b => ?_
    rw [Diagnostic.ofJson?, fields?_reread (by rfl) (by decide)]
    simp [str?, lookup_cons, and_assoc]

theorem Diagnostic.plain_toJson : d.toJson.Plain := by
  have hnote : ∀ x : Note, (noteToJson x).Plain := by
    rintro ⟨message, span⟩
    cases span <;> simp [noteToJson]
  obtain ⟨code, severity, message, span, notes⟩ := d
  cases notes <;> simp [Diagnostic.toJson, hnote]

theorem Json.nestingItems_le (h : ∀ i ∈ items, i.nesting ≤ n) : nestingItems items ≤ n := by
  induction items with
  | nil => simp [nestingItems]
  | cons i items ih =>
    obtain ⟨hi, hitems⟩ := forall_mem_cons.1 h
    exact Nat.max_le.2 ⟨hi, ih hitems⟩

theorem Diagnostic.nesting_toJson_le : d.toJson.nesting ≤ nestingLimit := by
  have hspan : ∀ s : Span, s.toJson.nesting = 1 := fun s => by
    simp [Span.toJson, nesting, nestingMembers]
  have hnote : ∀ x : Note, (noteToJson x).nesting ≤ 2 := by
    rintro ⟨message, span⟩
    cases span <;> simp [noteToJson, nesting, nestingMembers, hspan]
  have hnotes : nestingItems (d.notes.map noteToJson) ≤ 2 := nestingItems_le (by simpa using fun x _ => hnote x)
  by_cases h : d.notes = []
  · simp [Diagnostic.toJson, h, nesting, nestingMembers, hspan, nestingLimit]
  · rw [toJson_of_notes h]
    simp only [nesting, nestingMembers, hspan, nestingLimit]
    omega

theorem Diagnostic.ofText?_render_eq_some {d d'} :
    Diagnostic.ofText? d.toJson.render = some d' ↔ d.toJson.Readable nestingLimit ∧ d = d' := by
  rw [Diagnostic.ofText?, parse?_render d.plain_toJson, Option.bind_eq_bind, Option.bind_some]
  exact d.readsAs nestingLimit d'

/-- Stored trees and diagnostics are read back as they were: a tree exactly when its form nests no deeper
than the limit, a diagnostic always. The numbers in them have 64 bits. -/
theorem stored_form_reads_back :
    (∀ m m' : Module, Module.ofText? m.toText = some m' ↔
      m' = m ∧ m.toJson.nesting ≤ 127 ∧ m.toJson.Fits) ∧
    ∀ d d' : Diagnostic, Diagnostic.ofText? d.toJson.render = some d' ↔ d' = d ∧ d.toJson.Fits := by
  refine ⟨fun m m' => ?_, fun d d' => ?_⟩
  · rw [Module.ofText?_toText_eq_some, Readable, nestingLimit, and_comm, eq_comm]
  · rw [Diagnostic.ofText?_render_eq_some, Readable, and_comm, eq_comm]
    simp [d.nesting_toJson_le]

end TypeInfer
