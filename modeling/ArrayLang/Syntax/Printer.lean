import ArrayLang.Number.Decimal
import ArrayLang.Syntax.Basic

/-!
# Printed code

The text of expressions, statements and functions. Blocks open a brace, put every statement on a
line of its own, two columns further in, and close the brace on a line of its own.
-/

namespace ArrayLang

/-- The text of a constant. -/
def Literal.text : Literal → String
  | .none => "None"
  | .bool b => if b then "true" else "false"
  | .int n => toString n.toInt
  | .float x => decimalText x

namespace Printer

/-- A line break followed by the given indentation. -/
def newline (indent : Nat) : String :=
  "\n" ++ String.ofList (List.replicate indent ' ')

/-- Texts separated by a comma and a blank. -/
def commaSep (texts : List String) : String :=
  ", ".intercalate texts

/-- An adverb with the texts of its functions, arguments, axis and initial value. -/
def adverb (name : String) (funcs args : List String) (axis : String) (start : Option String) :
    String :=
  name ++ "(" ++ String.join (funcs.map (· ++ ", ")) ++ "[" ++ commaSep args ++ "], axis=" ++ axis
    ++ (match start with
      | some s => ", init=" ++ s
      | none => "")
    ++ ")"

end Printer

open Printer

mutual
/-- The text of an expression. -/
def Expr.text : Expr → String
  | ⟨.lit value, _⟩ => value.text
  | ⟨.var name, _⟩ => name
  | ⟨.tuple items, _⟩ =>
    let body := commaSep (Expr.texts items)
    if items.length = 1 then "(" ++ body ++ ",)" else "(" ++ body ++ ")"
  | ⟨.proj base i, _⟩ => base.text ++ "." ++ toString i
  | ⟨.array items, _⟩ => "[" ++ commaSep (Expr.texts items) ++ "]"
  | ⟨.index base index, _⟩ => base.text ++ "[" ++ index.text ++ "]"
  | ⟨.slice start stop step, _⟩ =>
    start.text ++ ":" ++ stop.text ++ String.join ((Expr.optionTexts step).map (":" ++ ·))
  | ⟨.attr base name, _⟩ => base.text ++ "." ++ name
  | ⟨.op op args, _⟩ => op.name ++ "(" ++ commaSep (Expr.texts args) ++ ")"
  | ⟨.opValue op, _⟩ => "<prim " ++ op.name ++ ">"
  | ⟨.call func args, _⟩ => func ++ "(" ++ commaSep (Expr.texts args) ++ ")"
  | ⟨.invoke callee args, _⟩ =>
    "invoke(" ++ commaSep (callee.text :: Expr.texts args) ++ ")"
  | ⟨.closure func values, _⟩ =>
    "closure " ++ func ++ "[" ++ commaSep (Expr.texts values) ++ "]"
  | ⟨.captured base i, _⟩ => base.text ++ ".captured" ++ toString i
  | ⟨.lambda decl, _⟩ => "<fn " ++ decl.name ++ ">"
  | ⟨.cast value elt, _⟩ => elt.name ++ "(" ++ value.text ++ ")"
  | ⟨.struct name fields, _⟩ =>
    name ++ " \x7b" ++ ",".intercalate (Expr.fieldTexts fields) ++ " \x7d"
  | ⟨.alloc elt shape, _⟩ => "alloc<" ++ elt.name ++ ">(" ++ shape.text ++ ")"
  | ⟨.map func args axis, _⟩ => adverb "map" [func.text] (Expr.texts args) axis.text none
  | ⟨.allPairs func args axis, _⟩ => adverb "allpairs" [func.text] (Expr.texts args) axis.text none
  | ⟨.reduce func combine start args axis, _⟩ =>
    adverb "reduce" [func.text, combine.text] (Expr.texts args) axis.text
      (Expr.optionTexts start).head?
  | ⟨.scan func combine emit start args axis, _⟩ =>
    adverb "scan" [func.text, combine.text, emit.text] (Expr.texts args) axis.text
      (Expr.optionTexts start).head?
termination_by structural e => e

/-- The texts of several expressions. -/
def Expr.texts : List Expr → List String
  | [] => []
  | e :: es => e.text :: Expr.texts es
termination_by structural es => es

/-- The text of an optional expression. -/
def Expr.optionTexts : Option Expr → List String
  | none => []
  | some e => [e.text]
termination_by structural e => e

/-- The texts of the fields of a struct. -/
def Expr.fieldTexts : List (String × Expr) → List String
  | [] => []
  | (name, e) :: rest => (" " ++ name ++ ": " ++ e.text) :: Expr.fieldTexts rest
termination_by structural es => es
end

/-- The text of a reconciled variable. -/
def Phi.text (p : Phi) : String :=
  p.name ++ " = phi(" ++ p.left.text ++ ", " ++ p.right.text ++ ")"

/-- The reconciled variables after a statement, nothing if there are none. -/
def Phi.mergeText (indent : Nat) (merge : List Phi) : String :=
  if merge.isEmpty then ""
  else " merge \x7b" ++ String.join (merge.map fun p => newline (indent + 2) ++ p.text)
    ++ newline indent ++ "\x7d"

mutual
/-- The text of a statement that starts at the given indentation. -/
def Stmt.text (indent : Nat) : Stmt → String
  | .assign target value => target.text ++ " = " ++ value.text
  | .ret value => "return " ++ value.text
  | .branch cond onTrue onFalse merge =>
    "if " ++ cond.text ++ " \x7b" ++ Stmt.lines (indent + 2) onTrue ++ newline indent
      ++ "\x7d else \x7b" ++ Stmt.lines (indent + 2) onFalse ++ newline indent ++ "\x7d"
      ++ Phi.mergeText indent merge
  | .loop cond body merge =>
    "while " ++ cond.text ++ " \x7b" ++ Stmt.lines (indent + 2) body ++ newline indent ++ "\x7d"
      ++ Phi.mergeText indent merge
termination_by structural s => s

/-- Statements, each on a new line at the given indentation. -/
def Stmt.lines (indent : Nat) : List Stmt → String
  | [] => ""
  | s :: ss => newline indent ++ s.text indent ++ Stmt.lines indent ss
termination_by structural ss => ss
end

/-- The text of a function's body with its braces, and an empty line after it. -/
def Stmt.bodyText (body : Block) : String :=
  "\x7b" ++ Stmt.lines 2 body ++ newline 0 ++ "\x7d\n\n"

/-- The text of a source function. -/
def FnDecl.text (f : FnDecl) : String :=
  let params := f.nonlocals.map ("nonlocal " ++ ·) ++ f.params.positional
    ++ f.params.rest?.toList.map ("*" ++ ·)
  "fn " ++ f.name ++ "(" ++ commaSep params ++ ") " ++ Stmt.bodyText f.body

/-- The text of a specialized function. -/
def TypedFn.text (f : TypedFn) : String :=
  let params := f.params.map fun (name, ty) => name ++ ": " ++ ty.text
  "fn " ++ f.name ++ "(" ++ commaSep params ++ ") -> " ++ f.returnType.text ++ " "
    ++ Stmt.bodyText f.body

end ArrayLang
