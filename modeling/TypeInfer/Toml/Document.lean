/-
The values and tables of a TOML document. A table is made by a header, by dotted
keys, on the way to the table of a header, or as a value in braces; how it was
made decides whether it can be extended later.
-/
import TypeInfer.Toml.Scalar

namespace TypeInfer.Toml

inductive TableKind where
  /-- Made by a header; the document itself counts as one. -/
  | header
  /-- Made on the way to the table of a header. -/
  | implicit
  /-- Made by a dotted key. -/
  | dotted
  /-- A value in braces. -/
  | inline
deriving DecidableEq, Repr, Inhabited

inductive Item where
  | text (s : String)
  | bool (b : Bool)
  /-- A number, a date or a time. -/
  | scalar
  | list (items : List Item)
  | table (kind : TableKind) (entries : List (String × Item))
  /-- The tables of a list header, each with its entries. -/
  | tables (elements : List (List (String × Item)))
deriving Inhabited

abbrev Entries := List (String × Item)

namespace Entries

/-- Replaces the item of a key, or adds it. -/
def set (entries : Entries) (key : String) (item : Item) : Entries :=
  if (entries.lookup key).isSome then
    entries.map fun e => if e.1 = key then (key, item) else e
  else entries ++ [(key, item)]

/-- Adds a key that is not there yet. -/
def add? (entries : Entries) (key : String) (item : Item) : Option Entries :=
  if (entries.lookup key).isSome then none else some (entries ++ [(key, item)])

/-- Adds a key behind the given dotted parts, through tables that no header opened and the last of a list of
tables; only a table that dotted keys made can get it. -/
def addDotted? (entries : Entries) (kind : TableKind) (key : String) (item : Item) :
    List String → Option Entries
  | [] => if kind = .dotted then entries.add? key item else none
  | part :: parts =>
    match entries.lookup part with
    | none => do
      let inner ← addDotted? [] .dotted key item parts
      return entries.set part (.table .dotted inner)
    | some (.table inner old) =>
      if inner = .dotted ∨ inner = .implicit then do
        let new ← addDotted? old inner key item parts
        return entries.set part (.table inner new)
      else none
    | some (.tables elements) => do
      let last ← elements.getLast?
      let new ← addDotted? last .header key item parts
      return entries.set part (.tables (elements.dropLast ++ [new]))
    | some _ => none

/-- Adds a key with its dotted parts. -/
def put? (entries : Entries) (item : Item) : List String → Option Entries
  | [] => none
  | [key] => entries.add? key item
  | part :: parts =>
    entries.addDotted? .header (parts.getLastD part) item (part :: parts.dropLast)

/-- Changes the table at the end of a header's path, through the last of a list of tables. -/
def update? (f : Entries → Option Entries) : List String → Entries → Option Entries
  | [], entries => f entries
  | part :: parts, entries =>
    match entries.lookup part with
    | none => do
      let new ← update? f parts []
      return entries.set part (.table .implicit new)
    | some (.table kind old) =>
      if kind = .inline then none
      else do
        let new ← update? f parts old
        return entries.set part (.table kind new)
    | some (.tables elements) => do
      let last ← elements.getLast?
      let new ← update? f parts last
      return entries.set part (.tables (elements.dropLast ++ [new]))
    | some _ => none

/-- Opens the table of a header. A table is opened once. -/
def openTable? (key : String) (entries : Entries) : Option Entries :=
  match entries.lookup key with
  | none => some (entries.set key (.table .header []))
  | some (.table .implicit old) => some (entries.set key (.table .header old))
  | some _ => none

def openElement? (key : String) (entries : Entries) : Option Entries :=
  match entries.lookup key with
  | none => some (entries.set key (.tables [[]]))
  | some (.tables elements) => some (entries.set key (.tables (elements ++ [[]])))
  | some _ => none

end Entries

/-! ### Values -/

/-- The values of a list up to its end; a comma may follow the last one. -/
def listRest? (value? : Reader Item) : Nat → Reader (List Item)
  | 0, _ => none
  | fuel + 1, cs =>
    match skipSpace cs with
    | ']' :: cs => some ([], cs)
    | cs => do
      let (item, cs) ← value? cs
      match skipSpace cs with
      | ',' :: cs =>
        let (items, cs) ← listRest? value? fuel cs
        return (item :: items, cs)
      | ']' :: cs => return ([item], cs)
      | _ => none

def keyValue? (value? : Reader Item) (cs : List Char) : Option ((List String × Item) × List Char) := do
  let (key, cs) ← key? cs
  match skipBlank cs with
  | '=' :: cs =>
    let (item, cs) ← value? (skipBlank cs)
    return ((key, item), cs)
  | _ => none

/-- The entries of a table in braces that has at least one. -/
def inlineRest? (value? : Reader Item) : Nat → Reader (List (List String × Item))
  | 0, _ => none
  | fuel + 1, cs => do
    let (entry, cs) ← keyValue? value? (skipBlank cs)
    match skipBlank cs with
    | ',' :: cs =>
      let (more, cs) ← inlineRest? value? fuel cs
      return (entry :: more, cs)
    | '\x7d' :: cs => return ([entry], cs)
    | _ => none

/-- A value, in which lists and tables nest at most `depth` deep. -/
def value? : Nat → Reader Item
  | depth, cs =>
    match cs with
    | [] => none
    | '"' :: _ | '\'' :: _ => do
      let (s, cs) ← string? cs
      return (.text (String.ofList s), cs)
    | '[' :: cs =>
      match depth with
      | 0 => none
      | depth + 1 => do
        let (items, cs) ← listRest? (value? depth) (cs.length + 1) cs
        return (.list items, cs)
    | '\x7b' :: cs =>
      match depth with
      | 0 => none
      | depth + 1 =>
        match skipBlank cs with
        | '\x7d' :: cs => some (.table .inline [], cs)
        | cs => do
          let (pairs, cs) ← inlineRest? (value? depth) (cs.length + 1) cs
          let entries ← pairs.foldlM (fun (e : Entries) (key, item) => e.put? item key) []
          return (.table .inline entries, cs)
    | 't' :: 'r' :: 'u' :: 'e' :: cs => some (.bool true, cs)
    | 'f' :: 'a' :: 'l' :: 's' :: 'e' :: cs => some (.bool false, cs)
    | cs => (scalar? cs).map fun cs => (.scalar, cs)

/-! ### Lines -/

/-- The entries read so far, and the path of the table that is open. -/
structure Document where
  entries : Entries := []
  path : List String := []
deriving Inhabited

namespace Document

def addKey? (d : Document) (key : List String) (item : Item) : Option Document := do
  return { d with entries := ← Entries.update? (·.put? item key) d.path d.entries }

/-- Opens the table of a header with the given operation on its parent. -/
def openAt? (d : Document) (openKey? : String → Entries → Option Entries) (path : List String) :
    Option Document := do
  let key ← path.getLast?
  return { entries := ← Entries.update? (openKey? key) path.dropLast d.entries, path }

/-- Reads the lines that are left. -/
def read? : Nat → Document → List Char → Option Document
  | 0, _, _ => none
  | fuel + 1, d, cs =>
    match skipBlank cs with
    | [] => some d
    | '[' :: '[' :: cs => do
      let (path, cs) ← key? (skipBlank cs)
      match skipBlank cs with
      | ']' :: ']' :: cs => read? fuel (← d.openAt? Entries.openElement? path) (← lineRest? cs)
      | _ => none
    | '[' :: cs => do
      let (path, cs) ← key? (skipBlank cs)
      match skipBlank cs with
      | ']' :: cs => read? fuel (← d.openAt? Entries.openTable? path) (← lineRest? cs)
      | _ => none
    | '#' :: rest => do read? fuel d (← lineRest? ('#' :: rest))
    | '\n' :: rest => read? fuel d rest
    | '\r' :: '\n' :: rest => read? fuel d rest
    | cs => do
      let ((key, item), cs) ← keyValue? (value? depthLimit) cs
      read? fuel (← d.addKey? key item) (← lineRest? cs)

end Document

/-- The entries of a document. A byte order mark may stand at its start. -/
def parse? (s : String) : Option Entries :=
  let cs := match s.toList with
    | c :: cs => if c.toNat = 0xfeff then cs else c :: cs
    | [] => []
  (Document.read? (cs.length + 1) {} cs).map Document.entries

end TypeInfer.Toml
