import Lox.Syntax.Basic

/-!
# Trees as text

A tree is shown as a nested form: `1 + (2 - x)` is `(+ 1 (group (- 2 x)))`.  A form is an atom, the
signature of a function, or a list of forms in parentheses; `Expr.form` and `Stmt.form` say which
form shows which tree, and `Form.text` writes a form out.
-/

namespace Lox

/-- A nested form. -/
inductive Form where
  | atom (text : String)
  /-- The name and the parameters of a function. -/
  | signature (name : String) (parameters : List String)
  | list (parts : List Form)

namespace Form

mutual

/-- A form written out. -/
def text : Form → String
  | atom s => s
  | signature name parameters => name ++ "(" ++ " ".intercalate parameters ++ ")"
  | list parts => "(" ++ texts parts ++ ")"

/-- Forms written out one after the other, a blank between them. -/
def texts : List Form → String
  | [] => ""
  | [part] => part.text
  | part :: rest => part.text ++ " " ++ texts rest

end

end Form

mutual

/-- The form that shows an expression. -/
def Expr.form : Expr → Form
  | .literal value => .atom value.text
  | .group inner => .list [.atom "group", inner.form]
  | .unary op operand => .list [.atom op.lexeme, operand.form]
  | .binary left op right => .list [.atom op.lexeme, left.form, right.form]
  | .logical left op right => .list [.atom op.lexeme, left.form, right.form]
  | .variable_ ref => .atom ref.name.lexeme
  | .assign target value => .list [.atom "assign", .atom target.name.lexeme, value.form]
  | .call callee arguments _ => .list (.atom "call" :: callee.form :: Expr.forms arguments)
  | .get object name => .list [.atom "get", object.form, .atom name.lexeme]
  | .set object name value => .list [.atom "set", object.form, .atom name.lexeme, value.form]
  | .this _ _ => .atom "this"
  | .super _ method _ => .list [.atom "super", .atom method.lexeme]
  | .function decl => decl.form

/-- The forms that show expressions. -/
def Expr.forms : List Expr → List Form
  | [] => []
  | e :: rest => e.form :: Expr.forms rest

/-- The form that shows a statement. -/
def Stmt.form : Stmt → Form
  | .expression value => .list [.atom ";", value.form]
  | .print _ value => .list [.atom "print", value.form]
  | .var name none => .list [.atom "var", .atom name.lexeme]
  | .var name (some initial) => .list [.atom "var", .atom name.lexeme, initial.form]
  | .block body => .list (.atom "block" :: Stmt.forms body)
  | .branch condition yes none => .list [.atom "if", condition.form, yes.form]
  | .branch condition yes (some no) => .list [.atom "if", condition.form, yes.form, no.form]
  | .loop condition body => .list [.atom "while", condition.form, body.form]
  | .function decl => decl.form
  | .return_ _ none => .list [.atom "return"]
  | .return_ _ (some value) => .list [.atom "return", value.form]
  | .class_ name superclass methods =>
      let parent :=
        match superclass with
        | none => []
        | some ref => [.atom "<", .atom ref.name.lexeme]
      .list (.atom "class" :: .atom name.lexeme :: parent ++ Function.forms methods)

/-- The forms that show statements. -/
def Stmt.forms : List Stmt → List Form
  | [] => []
  | s :: rest => s.form :: Stmt.forms rest

/-- The form that shows a function. -/
def Function.form : Function → Form
  | ⟨name, parameters, body⟩ =>
      .list (.atom "fun" :: .signature name.lexeme (parameters.map Ident.lexeme) ::
        Stmt.forms body)

/-- The forms that show functions. -/
def Function.forms : List Function → List Form
  | [] => []
  | f :: rest => f.form :: Function.forms rest

end

/-- A program as text, one line for each statement. -/
def programText (program : List Stmt) : String :=
  "\n".intercalate (program.map fun s => s.form.text)

end Lox
