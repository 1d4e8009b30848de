import VeriScript.Script.Basic
import VeriScript.Text.Quoted

/-!
# Syntax trees

One shape for all kinds of syntax, for what treats them alike.

* `Expr.tree`, `Stmt.tree`, … — the tree of a piece of syntax.
* `Tree.find` — the nodes of a kind, outer before inner, left before right.
* `Tree.dump` — the tree as indented lines (`pretty_print_ast`); `Tree.shown` — if its integers can be written.
-/

namespace VeriScript

/-- What a node says besides its kind and its parts. -/
inductive Label where
  | nothing
  /-- The node is about the first of its parts. -/
  | firstPart
  | text (s : String)
  | int (n : Nat)
  | bool (b : Bool)
  | names (ns : List String)
  | type (t : Ty)
  | alias (name : String) (t : Ty)
  | importTerms (file : String) (qualifier : Option String)
  deriving Repr

inductive Tree where
  | node (kind : String) (label : Label) (parts : List Tree) (span : Span) (type? : Option Ty)
  deriving Repr

/-! ## The tree of a script -/

mutual

def Pattern.tree : Pattern → Tree
  | .wildcard s t => .node "PATTERN_WILDCARD" (.text "_") [] s t
  | .var s name t => .node "PATTERN_VAR" (.text name) [] s t
  | .tuple s ps t => .node "PATTERN_TUPLE" .nothing (Pattern.trees ps) s t
  | .paren s p t => .node "PATTERN_LOCATED" .nothing [p.tree] s t

def Pattern.trees : List Pattern → List Tree
  | [] => []
  | p :: ps => p.tree :: Pattern.trees ps

end

mutual

def Expr.tree : Expr → Tree
  | .bool s b => .node "BOOL" (.bool b) [] s none
  | .int s n => .node "INT" (.int n) [] s none
  | .string s text => .node "STRING" (.text text) [] s none
  | .code s text => .node "CODE" (.text text) [] s none
  | .termType s text => .node "CTYPE" (.text text) [] s none
  | .array s es => .node "ARRAY" .nothing (Expr.trees es) s none
  | .tuple s es => .node "TUPLE" .nothing (Expr.trees es) s none
  | .record s fields => .node "RECORD" (.names (Table.names fields)) (Expr.fieldTrees fields) s none
  | .index s e i => .node "INDEX" .nothing [e.tree, i.tree] s none
  | .field s e name => .node "LOOKUP" (.text name) [e.tree] s none
  | .proj s e i => .node "TLOOKUP" (.int i) [e.tree] s none
  | .var s name => .node "VAR" (.text name) [] s none
  | .lam s p e => .node "FUNCTION" .firstPart [p.tree, e.tree] s none
  | .app s f e => .node "APPLICATION" .nothing [f.tree, e.tree] s none
  | .letIn s g e => .node "LET" .firstPart [g.tree, e.tree] s none
  | .typed s e t => .node "TSIG" (.type t) [e.tree] s none
  | .ite s test yes no => .node "IF" .nothing [test.tree, yes.tree, no.tree] s none
  | .block s body => .node "BLOCK" .nothing (Stmt.trees body) s none
  | .paren s e => .node "LOCATED" .nothing [e.tree] s none

def Expr.trees : List Expr → List Tree
  | [] => []
  | e :: es => e.tree :: Expr.trees es

def Expr.fieldTrees : List (String × Expr) → List Tree
  | [] => []
  | (_, e) :: fields => e.tree :: Expr.fieldTrees fields

def Decl.tree : Decl → Tree
  | .mk s p e => .node "DECL" .firstPart [p.tree, e.tree] s none

def Decl.trees : List Decl → List Tree
  | [] => []
  | d :: ds => d.tree :: Decl.trees ds

def Group.tree : Group → Tree
  | .single s d => .node "DECL_GROUP" (.text "nonrec") [d.tree] s none
  | .recursive s ds => .node "DECL_GROUP" (.text "rec") (Decl.trees ds) s none

def Stmt.tree : Stmt → Tree
  | .bind s p e => .node "STMT_BIND" .firstPart [p.tree, e.tree] s none
  | .define s g => .node "STMT_LET" .firstPart [g.tree] s none
  | .code s text => .node "STMT_CODE" (.text text) [] s none
  | .typedef s name t => .node "STMT_TYPEDEF" (.alias name t) [] s none
  | .importTerms s file qualifier => .node "STMT_IMPORT" (.importTerms file qualifier) [] s none

def Stmt.trees : List Stmt → List Tree
  | [] => []
  | st :: sts => st.tree :: Stmt.trees sts

end

/-! ## Dumps -/

/-- A list between brackets. -/
def bracketed (opening : String) (items : List String) (closing : String) : String :=
  opening ++ String.intercalate ", " items ++ closing

/-- A keyed entry of a dump. -/
def dumpEntry (key text : String) : String :=
  Text.treeText key ++ ": " ++ text

mutual

/-- A type in full, for dumps. -/
def Ty.dump : Ty → String
  | .con name args =>
    bracketed "\x7b" [dumpEntry "kind" "'con'", dumpEntry "name" (Text.treeText name),
      dumpEntry "parameters" (bracketed "[" (Ty.dumpList args) "]")] "\x7d"
  | .var name => bracketed "\x7b" [dumpEntry "kind" "'var'", dumpEntry "name" (Text.treeText name)] "\x7d"
  | .hole id => bracketed "\x7b" [dumpEntry "kind" "'meta'", dumpEntry "id" (Text.decimalNat id)] "\x7d"
  | .record fields =>
    bracketed "\x7b" [dumpEntry "kind" "'record'",
      dumpEntry "fields" (bracketed "\x7b" (Ty.dumpFields fields) "\x7d")] "\x7d"

def Ty.dumpList : List Ty → List String
  | [] => []
  | t :: ts => t.dump :: Ty.dumpList ts

def Ty.dumpFields : List (String × Ty) → List String
  | [] => []
  | (name, t) :: fields => dumpEntry name t.dump :: Ty.dumpFields fields

end

/-- A label in a dump, between parentheses. -/
def Label.dump : Label → String
  | .nothing | .firstPart => ""
  | .text s => "(" ++ Text.treeText s ++ ")"
  | .int n => "(" ++ Text.decimalNat n ++ ")"
  | .bool b => if b then "(True)" else "(False)"
  | .names ns => bracketed "([" (ns.map Text.treeText) "])"
  | .type t => "(" ++ t.dump ++ ")"
  | .alias name t =>
    bracketed "(\x7b" [dumpEntry "name" (Text.treeText name), dumpEntry "type" t.dump] "\x7d)"
  | .importTerms file qualifier =>
    bracketed "(\x7b" [dumpEntry "file" (Text.treeText file),
      dumpEntry "qualifier" (match qualifier with | some q => Text.treeText q | none => "None")] "\x7d)"

namespace Tree

mutual

/-- A line for each node, indented by its depth. -/
def dumpAt (depth : Nat) : Tree → String
  | .node kind label parts _ type? =>
    let typeText := match type? with | some t => " : " ++ t.dump | none => ""
    String.ofList (List.replicate (2 * depth) ' ') ++ kind ++ label.dump ++ typeText ++ "\n" ++
      dumpAll (depth + 1) parts

def dumpAll (depth : Nat) : List Tree → String
  | [] => ""
  | t :: ts => dumpAt depth t ++ dumpAll depth ts

end

/-- The tree as indented lines. -/
def dump (t : Tree) : String :=
  t.dumpAt 0

mutual

/-- The integers in a tree. -/
def numerals : Tree → List Int
  | .node _ (.int n) parts _ _ => n :: numeralsAll parts
  | .node _ _ parts _ _ => numeralsAll parts

def numeralsAll : List Tree → List Int
  | [] => []
  | t :: ts => numerals t ++ numeralsAll ts

end

/-- The tree as indented lines, if it can be written. -/
def shown (t : Tree) : Except Text.Fault String :=
  Text.written t.numerals t.dump

mutual

/-- The nodes of a kind, outer before inner and left before right. -/
def find (wanted : String) : Tree → List Tree
  | .node kind label parts span type? =>
    (if kind = wanted then [.node kind label parts span type?] else []) ++ findAll wanted parts

def findAll (wanted : String) : List Tree → List Tree
  | [] => []
  | t :: ts => find wanted t ++ findAll wanted ts

end

end Tree

end VeriScript
