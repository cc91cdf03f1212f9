/-
Names of modules and the files that hold them. A module is a file `m.py`; a
package is a directory with a file `__init__.py`.
-/
import TypeInfer.Path

namespace TypeInfer

def sourceSuffix : String := ".py"

/-- The file that makes its directory a package. -/
def packageInit : String := "__init__.py"

namespace Path

def isSourceFile (p : Path) : Bool := sourceSuffix.toList.isSuffixOf p.text.toList

def isPackageInit (p : Path) : Bool := p.fileName? == some packageInit

def initFile (dir : Path) : Path := dir.child packageInit

def moduleFile (dir : Path) (name : String) : Path := dir.child (name ++ sourceSuffix)

/-- The path of a source file without what makes it one. -/
def moduleStem (p : Path) : List Char :=
  let text := p.text.toList
  match Text.stripEnd? packageInit.toList text with
  | some dir => Text.trimEndOf ['/', '\\'] dir
  | none => (Text.stripEnd? sourceSuffix.toList text).getD text

/-- A dot inside a path is written so that it does not divide the name. -/
def qnameChar (c : Char) : List Char :=
  if c == '.' then ['%', '2', '0'] else if c == '/' || c == '\\' then ['.'] else [c]

/-- The dotted name under which a source file is loaded. -/
def moduleQname (p : Path) : String :=
  String.ofList ((p.moduleStem.flatMap qnameChar).dropWhile (· == '.'))

/-- The short name of a module: that of its file, or that of the directory of a
package. -/
def moduleName (p : Path) : String :=
  match p.fileName? with
  | none => ""
  | some name =>
    if name == packageInit then (p.parent?.bind fileName?).getD name
    else ((Text.stripEnd? sourceSuffix.toList name.toList).map String.ofList).getD name

/-- The directory that holds a module or the directory of a package. -/
def moduleDir? (p : Path) : Option Path :=
  if p.isPackageInit then p.parent?.bind parent? else p.parent?

end Path

end TypeInfer
