import InfraModule.Tree.Basic
import InfraModule.Tree.Error
import InfraModule.Written

/-!
# Writing expressions back

An expression is written in the short form of a document: a function or condition becomes a tag on
its operand, or on the sequence of its operands. Functions of one operand, `!Sub` without
parameters and named conditions take the operand itself, `!Transform` a mapping, and `!If` names its
condition. Declarations cannot be written.
-/

namespace InfraModule

/-- A literal as it is written. A text that does not denote a value of the literal's kind is written
as text. -/
def Literal.write (l : Literal) : Written :=
  match l.asInt?, l.asBool? with
  | some n, _ => .int n
  | none, some b => .bool b
  | none, none => .text l.text

namespace Tree

/-- The operand of `!If` that stands for its condition: the name, where the condition has one. -/
def conditionName (t : Tree) (condition : NodeId) : NodeId :=
  match t.expression? condition with
  | some (.condition (.reference name _)) => name
  | _ => condition

/-- The operand of a call as it is written, where `write` writes the operands. -/
def writeOperand (t : Tree) (write : NodeId → Except TreeError Written) :
    Call → Except TreeError Written
  | .base64 operand => write operand
  | .getAzs operand => write operand
  | .importValue operand => write operand
  | .ref operand _ => write operand
  | .sub operand none => write operand
  | .ifElse condition ifTrue ifFalse =>
    .sequence <$> [t.conditionName condition, ifTrue, ifFalse].mapM write
  | .transform name parameters => do
    let name ← write name
    let parameters ← write parameters
    return .mapping [("Name", name), ("Parameters", parameters)]
  | call => .sequence <$> call.operands.mapM write

/-- The operand of a condition as it is written, where `write` writes the operands. -/
def writeConditionOperand (write : NodeId → Except TreeError Written) :
    Condition → Except TreeError Written
  | .reference name _ => write name
  | .existence name _ => write name
  | condition => .sequence <$> condition.operands.mapM write

/-- An expression as it is written, where `write` writes its children. -/
def writeExpression (t : Tree) (write : NodeId → Except TreeError Written) :
    Expression → Except TreeError Written
  | .literal literal => return literal.write
  | .list items => .sequence <$> items.mapM write
  | .object entries =>
    Written.ofEntries <$> entries.mapM fun (key, value) => (key.text, ·) <$> write value
  | .call call => .tagged call.name.tag <$> t.writeOperand write call
  | .condition condition =>
    .tagged condition.name.tag <$> writeConditionOperand write condition

/-- A node as it is written, where `write` writes the nodes below it. -/
def writeNode (t : Tree) (write : NodeId → Except TreeError Written) (id : NodeId) :
    Node → Except TreeError Written
  | .declaration d => .error (.unexpectedNode id "Expression" d.kind.name)
  | .collection items => .sequence <$> items.mapM write
  | .expression e => t.writeExpression write e

/-- A node as it is written, if its subtree is at most `levels` deep. -/
def writeWithin (t : Tree) : Nat → NodeId → Except TreeError Written
  | 0, id => .error (.unknownNode id)
  | levels + 1, id =>
    match t.node? id with
    | none => .error (.unknownNode id)
    | some node => t.writeNode (t.writeWithin levels) id node

/-- A node as it is written. -/
def write (t : Tree) (id : NodeId) : Except TreeError Written :=
  t.writeWithin t.size id

end Tree

end InfraModule
