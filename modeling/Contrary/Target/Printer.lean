import Contrary.Target.Syntax

/-!
# The text of the generated C

How the generated C is spelled, byte for byte.
-/

namespace Contrary
namespace Target

/-- The lines before the main function. -/
def preambleLines : List String :=
  [ "#include <stdio.h>",
    "#include <stdbool.h>",
    "#include <stdlib.h>",
    "int global=0;",
    "void* label=NULL;",
    "int err(char* text)",
    "\x7b",
    "    printf(\"ABORTED\\n:%s\",text);",
    "    return 1;",
    "\x7d",
    "#define GOTO if(label!=NULL) goto *label; else return err(\"nothing to pin\")",
    "#define LEAK_CHECK(on_name,normal) if(on_name) \x7bprintf(\"ABORTED\\nMemory leaked: %s. Everything should be undefined at the end using \\\"define\\\"\",normal);return 1;\x7d",
    "#define ASSERT_ALIVE(bool_name) if(!(bool_name)) \x7bprintf(\"ABORTED\\nTried to use already undefined variable/flag/array\");return 1;\x7d",
    "int get(int val)",
    "\x7b",
    "    return val + global;",
    "\x7d" ]

/-- What stands before the main function. -/
def preamble : Bytes :=
  preambleLines.flatMap fun l => Bytes.line (ascii l)

/-- A number; a negative one stands in parentheses. -/
def renderLiteral (n : Int32) : Bytes :=
  if n < 0 then ascii "(" ++ Bytes.decimal n.toInt ++ ascii ")" else Bytes.decimal n.toInt

/-- The call that adds the offset to a cell. -/
def renderGet (cell : Bytes) : Bytes :=
  ascii "get(" ++ cell ++ ascii ")"

/-- The text of a position. -/
def Position.render : Position → Bytes
  | .literal n => renderLiteral n
  | .shown x => renderGet x

/-- The text of a variable or element. -/
def LValue.render : LValue → Bytes
  | .scalar x => x
  | .element a i => a ++ ascii "[" ++ i.render ++ ascii "]"

/-- The text of an expression. -/
def Expr.render : Expr → Bytes
  | .literal n => renderLiteral n
  | .shown cell => renderGet cell.render

/-- The text of a sign. -/
def Sign.render : Sign → Bytes
  | .plus => ascii "+"
  | .minus => ascii "-"

/-- The text of a statement. -/
def Stmt.render : Stmt → Bytes
  | .assertLive live => ascii "ASSERT_ALIVE(" ++ live ++ ascii ");"
  | .setLive live true => live ++ ascii "=true;"
  | .setLive live false => live ++ ascii "=false;"
  | .clear cell => cell ++ ascii "=-global;"
  | .clearAll array size =>
      ascii "for(int i=0;i<" ++ Bytes.decimal size ++ ascii ";i++)\x7b" ++ array ++
        ascii "[i]=-global;\x7d"
  | .scan cell => ascii "scanf(\"%d\",&" ++ cell.render ++ ascii ");"
  | .rebase cell => cell.render ++ ascii "-=global;"
  | .printNumber e => ascii "printf(\"%d\\n\"," ++ e.render ++ ascii ");"
  | .printChar e => ascii "printf(\"%c\\n\",(char)" ++ e.render ++ ascii ");"
  | .saveValue e => ascii "int temp=" ++ e.render ++ ascii ";"
  | .saveAddress cell => ascii "int* addr=&" ++ cell.render ++ ascii ";"
  | .moveOffset sign => ascii "global" ++ sign.render ++ ascii "=temp;"
  | .moveSaved sign => ascii "(*addr)" ++ sign.render ++ ascii "=temp;"
  | .moveCell cell sign => cell.render ++ sign.render ++ ascii "=temp;"
  | .place name => name ++ ascii ":;"
  | .take name => ascii "label=&&" ++ name ++ ascii ";"
  | .goto => ascii "GOTO;"

/-- The statements of a line, without its comment. -/
def Line.renderBody (l : Line) : Bytes :=
  let body := l.body.flatMap Stmt.render
  if l.braced then ascii "\x7b" ++ body ++ ascii "\x7d" else body

/-- The text of a line. -/
def Line.render (l : Line) : Bytes :=
  Bytes.line (l.renderBody ++ ascii "//" ++ l.comment)

/-- The text of the head of a block. -/
def Head.render (h : Head) : Bytes :=
  h.checks.flatMap Stmt.render ++
    Bytes.line (ascii "if(" ++ h.left.render ++ h.comparison.symbol ++ h.right.render ++
      ascii ")\x7b")

/-- The text of a block. -/
def Block.render : Block → Bytes
  | .done => []
  | .line l next => l.render ++ next.render
  | .branch head body next => head.render ++ body.render ++ Bytes.line (ascii "\x7d") ++ next.render

/-- The text of a declaration. -/
def Decl.render : Decl → Bytes
  | .scalar cell live =>
      Bytes.line (ascii "int " ++ cell ++ ascii "=0; bool " ++ live ++ ascii "=false;")
  | .array cell live size =>
      Bytes.line (ascii "int " ++ cell ++ ascii "[" ++ Bytes.decimal size ++
        ascii "]=\x7b\x7d; bool " ++ live ++ ascii "=false;")
  | .flag live => Bytes.line (ascii "bool " ++ live ++ ascii "=true;")

/-- The text of a check at the end. -/
def LeakCheck.render (c : LeakCheck) : Bytes :=
  ascii "LEAK_CHECK(" ++ c.live ++ ascii ",\"" ++ c.name ++ ascii "\");"

/-- The text of a generated file. -/
def Code.render : Code → Bytes
  | .empty => ascii "int main()\x7b\x7d"
  | .main decls body leaks =>
      preamble ++ Bytes.line (ascii "int main()\x7b") ++ decls.flatMap Decl.render ++ body.render ++
        Bytes.line (leaks.flatMap LeakCheck.render) ++ Bytes.line (ascii "\x7d")

end Target
end Contrary
