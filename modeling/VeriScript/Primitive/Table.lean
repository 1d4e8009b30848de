import VeriScript.Session.Basic
import VeriScript.Session.Options
import VeriScript.Text.Lines

/-!
# The table of primitives

* `PrimitiveEntry` — a primitive with its schema, its documentation and its value (`make_primitive`).
* `primitives` — all of them; `available` — those of some lifecycles (`filter_avail`).
* `Session.initial`, `Session.enable` — a session with the current primitives, and one with those of another
  lifecycle besides (`initial_session`, `add_primitives`).
-/

namespace VeriScript

structure PrimitiveEntry where
  name : String
  schema : Schema
  life : Lifecycle
  doc : List String
  value : Value

namespace PrimitiveEntry

/-- The documentation of a primitive. -/
def help (e : PrimitiveEntry) : String :=
  let notice := match e.life with
    | .current => []
    | .deprecated => ["DEPRECATED AND WILL SOON BE REMOVED", ""]
    | .experimental => ["EXPERIMENTAL", ""]
  Text.joinLines (["Description", "-----------", ""] ++ notice ++
    ["    " ++ e.name ++ " : " ++ e.schema.render, ""] ++ e.doc)

/-- An entry for a function. -/
def ofOp (op : Op) (vars : List String) (type : Ty) (doc : String) : PrimitiveEntry :=
  ⟨op.name, ⟨vars, type⟩, .current, [doc], .builtin (.op op) [] none⟩

/-- An entry for a command. -/
def ofCommand (c : Command) (vars : List String) (type : Ty) (life : Lifecycle) (doc : List String) :
    PrimitiveEntry :=
  ⟨c.name, ⟨vars, type⟩, life, doc, .ofCommand c⟩

end PrimitiveEntry

namespace Primitive

/-! ## Types that occur in the table -/

def a : Ty := .var "a"

def b : Ty := .var "b"

def m : Ty := .var "m"

/-- A block at the top level. -/
def topLevel (result : Ty) : Ty := .block (.context .topLevel) result

def proofScript (result : Ty) : Ty := .block (.context .proofScript) result

def setup (result : Ty) : Ty := .block (.context .setup) result

def integerOp : Ty := .fn .int (.fn .int .int)

def integerTest : Ty := .fn .int (.fn .int .bool)

/-! ## Entries -/

open PrimitiveEntry (ofOp ofCommand)

/-- The primitives for values and sessions. -/
def general : List PrimitiveEntry :=
  [ofOp .yield ["m", "a"] (.fn a (.block m a)) "Yield a value in any monadic context.",
   ⟨"true", .mono .bool, .current, ["The boolean true."], .bool true⟩,
   ⟨"false", .mono .bool, .current, ["The boolean false."], .bool false⟩,
   ofOp .forEach ["m", "a", "b"] (.fn (.list a) (.fn (.fn a (.block m b)) (.block m (.list b))))
    "Run an action for each element of a list, collecting the results.",
   ofOp .null ["a"] (.fn (.list a) .bool) "Test whether a list is empty.",
   ofOp .nth ["a"] (.fn (.list a) (.fn .int a)) "Look up the element at a zero-based index of a list.",
   ofOp .head ["a"] (.fn (.list a) a) "First element of a non-empty list.",
   ofOp .tail ["a"] (.fn (.list a) (.list a)) "All but the first element of a non-empty list.",
   ofOp .concat ["a"] (.fn (.list a) (.fn (.list a) (.list a))) "Concatenate two lists.",
   ofOp .length ["a"] (.fn (.list a) .int) "Number of elements of a list.",
   ofOp .strConcat [] (.fn .string (.fn .string .string)) "Concatenate two strings.",
   ofOp (.arith .add) [] integerOp "Integer addition, also written +.",
   ofOp (.arith .sub) [] integerOp "Integer subtraction, also written -.",
   ofOp (.arith .mul) [] integerOp "Integer multiplication, also written *.",
   ofOp (.arith .div) [] integerOp "Integer division rounding down, also written /.",
   ofOp (.arith .mod) [] integerOp "Integer remainder, also written %.",
   ofOp (.order .lt) [] integerTest "Less than, also written <.",
   ofOp (.order .le) [] integerTest "Less than or equal, also written <=.",
   ofOp (.order .gt) [] integerTest "Greater than, also written >.",
   ofOp (.order .ge) [] integerTest "Greater than or equal, also written >=.",
   ofOp .eq ["a"] (.fn a (.fn a .bool))
    "Structural equality, also written ==. Functions cannot be compared.",
   ofOp .neq ["a"] (.fn a (.fn a .bool)) "Structural inequality, also written !=.",
   ofOp .not [] (.fn .bool .bool) "Boolean negation.",
   ofOp .showValue ["a"] (.fn a .string) "Render a value as a string.",
   ofCommand .print ["a"] (.fn a (topLevel .unit)) .current ["Print a value."],
   ofCommand .env [] (topLevel .unit) .current ["Print every name in scope with its type."],
   ofCommand .help [] (.fn .string (topLevel .unit)) .current ["Print the documentation of a primitive."],
   ofCommand .includeFile [] (.fn .string (topLevel .unit)) .current
    ["Run the statements of another script file in the current session."],
   ofCommand (.enable .deprecated) [] (topLevel .unit) .current ["Make deprecated primitives available."],
   ofCommand (.enable .experimental) [] (topLevel .unit) .current
    ["Make experimental primitives available."],
   ofCommand .setAscii [] (.fn .bool (topLevel .unit)) .current
    ["Print terms using only ASCII characters."],
   ofCommand .setBase [] (.fn .int (topLevel .unit)) .current
    ["Set the base used to print integers, one of 2, 8, 10 or 16."],
   ofCommand .setColor [] (.fn .bool (topLevel .unit)) .current ["Print terms with ANSI colors."],
   ofCommand .fails ["a"] (.fn (topLevel a) (topLevel .unit)) .current
    ["Run an action that is expected to fail, failing if it succeeds."],
   ofCommand .time ["a"] (.fn (topLevel a) (topLevel a)) .current
    ["Run an action and print how long it took."],
   ofCommand .exit [] (.fn .int (topLevel .unit)) .current ["Exit the interpreter with a status code."],
   ofCommand .dumpFile [] (.fn .string (topLevel .unit)) .deprecated
    ["Print the syntax tree of a script file."]]

/-- The primitives for terms. -/
def forTerms : List PrimitiveEntry :=
  [ofCommand .freshSymbolic [] (.fn .string (.fn .termType (topLevel .term))) .current
    ["Create a fresh symbolic variable of the given type."],
   ofOp .evalInt [] (.fn .term .int) "Evaluate a closed Integer term.",
   ofOp .evalBool [] (.fn .term .bool) "Evaluate a closed Bit term.",
   ofOp .showTerm [] (.fn .term .string) "Render a term as a string.",
   ofCommand .printTerm [] (.fn .term (topLevel .unit)) .current ["Print a term."],
   ofCommand .printType [] (.fn .term (topLevel .unit)) .current ["Print the type of a term."],
   ofOp .termType [] (.fn .term .termType) "The type of a term.",
   ofOp .termSize [] (.fn .term .int) "Number of nodes of a term.",
   ofCommand .define [] (.fn .string (.fn .term (topLevel .term))) .current
    ["Give a term a name usable inside later inline terms."]]

/-- The primitives for proofs and specifications. -/
def forProofs : List PrimitiveEntry :=
  [ofCommand .trivial [] (proofScript .unit) .current ["Close a goal that simplifies to True."],
   ofCommand .concede [] (.fn .string (proofScript .unit)) .current
    ["Close the current goal without proof, printing the given reason."],
   ofCommand .assumeValid [] (proofScript .unit) .deprecated
    ["Close the current goal without proof. Use 'admit' instead."],
   ofCommand .goalEval [] (proofScript .unit) .current
    ["Simplify the current goal by constant folding."],
   ofCommand .printGoal [] (proofScript .unit) .current ["Print the current goal."],
   ofCommand .quickcheck [] (.fn .int (proofScript .unit)) .current
    ["Test the goal on the given number of assignments. A passing goal",
     "is closed as tested, a failing one reports a counterexample."],
   ofCommand .prove [] (.fn (proofScript .unit) (.fn .term (topLevel (.con "ProofResult" [])))) .current
    ["Run a proof script on a Bit term and return Valid or a counterexample."],
   ofCommand .provePrint [] (.fn (proofScript .unit) (.fn .term (topLevel (.con "Theorem" [])))) .current
    ["Run a proof script on a Bit term, failing unless the goal holds."],
   ofCommand .specVar [] (.fn .string (.fn .termType (setup .term))) .current
    ["Declare a fresh symbolic variable of the specification."],
   ofCommand .specPre [] (.fn .term (setup .unit)) .current
    ["Add a precondition to the specification."],
   ofCommand .specPost [] (.fn .term (setup .unit)) .current
    ["Add a postcondition to the specification."],
   ofCommand .verifySpec []
    (.fn .string (.fn (setup .unit) (.fn (proofScript .unit) (topLevel (.con "Spec" []))))) .current
    ["Prove that the preconditions of a specification imply its postconditions."],
   ofCommand .assumeSpec [] (.fn .string (.fn (setup .unit) (topLevel (.con "Spec" [])))) .current
    ["Record a specification as holding without proving it."],
   ofCommand .summarize [] (topLevel .unit) .experimental
    ["Print the theorems and specifications proved so far."],
   ofCommand .writeCoq [] (.fn .string (.fn .term (.fn .string (topLevel .unit)))) .experimental
    ["write_coq_term name term file: export a term as a Coq definition."]]

end Primitive

/-- All primitives. -/
def primitives : List PrimitiveEntry :=
  Primitive.general ++ Primitive.forTerms ++ Primitive.forProofs

/-- The primitives of some lifecycles. -/
def available (lives : List Lifecycle) : List PrimitiveEntry :=
  primitives.filter fun e => lives.contains e.life

/-- The schemas of the primitives of some lifecycles. -/
def primitiveTypes (lives : List Lifecycle) : List (String × Schema) :=
  (available lives).map fun e => (e.name, e.schema)

namespace Session

/-- A session with the current primitives. -/
def initial (options : Options) : Session :=
  let entries := available [.current]
  { values := entries.map fun e => (e.name, e.value)
    types := primitiveTypes [.current]
    aliases := []
    docs := entries.map fun e => (e.name, e.help)
    lifecycles := [.current]
    terms := []
    proofs := []
    display := { Display.standard with color := options.useColor } }

/-- Entries for names that have none yet. -/
def addMissing {α : Type} (table new : List (String × α)) : List (String × α) :=
  table ++ new.filter fun e => !Table.has table e.1

/-- Make the primitives of a lifecycle available; names that are bound keep their binding. -/
def enable (s : Session) (life : Lifecycle) : Session :=
  let entries := available [life]
  { s with
    values := addMissing s.values (entries.map fun e => (e.name, e.value))
    types := addMissing s.types (primitiveTypes [life])
    docs := addMissing s.docs (entries.map fun e => (e.name, e.help))
    lifecycles := if s.lifecycles.contains life then s.lifecycles else s.lifecycles ++ [life] }

end Session

end VeriScript
