import ClassLift.Json.Reader

/-!
What a node of a script is. The kinds are closed: nothing else occurs in a tree.
-/

namespace ClassLift

inductive Kind
  -- The children are scripts.
  | root
  -- One compilation unit, which has a file name.
  | script
  -- Stands where an optional child is missing.
  | empty
  | identifier
  | stringLiteral
  | numericLiteral
  | thisKeyword
  -- [object, identifier]
  | propertyAccess
  -- [target, value]
  | assignment
  -- [callee, argument, …]
  | call
  -- [name or empty, parameter list, block]
  | function
  | parameterList
  | block
  -- [expression] or nothing
  | returnStatement
  -- [expression]
  | expressionStatement
  -- [variable declaration, …]
  | variableStatement
  -- [identifier] or [identifier, value]
  | variableDeclaration
  | objectLiteral
  -- [value]; the key is the text of the node
  | propertyAssignment
  -- [name or empty, superclass or empty, class members]
  | classDefinition
  | classMembers
  -- [function]; the name is the text of the node
  | memberFunction
  deriving DecidableEq, Repr

namespace Kind

def name : Kind → String
  | root => "Root"
  | script => "Script"
  | empty => "Empty"
  | identifier => "Identifier"
  | stringLiteral => "StringLiteral"
  | numericLiteral => "NumericLiteral"
  | thisKeyword => "ThisKeyword"
  | propertyAccess => "PropertyAccess"
  | assignment => "Assignment"
  | call => "Call"
  | function => "Function"
  | parameterList => "ParameterList"
  | block => "Block"
  | returnStatement => "Return"
  | expressionStatement => "ExpressionStatement"
  | variableStatement => "VariableStatement"
  | variableDeclaration => "VariableDeclaration"
  | objectLiteral => "ObjectLiteral"
  | propertyAssignment => "PropertyAssignment"
  | classDefinition => "Class"
  | classMembers => "ClassMembers"
  | memberFunction => "MemberFunction"

def all : List Kind := [
    root, script, empty, identifier, stringLiteral, numericLiteral, thisKeyword, propertyAccess,
    assignment, call, function, parameterList, block, returnStatement, expressionStatement,
    variableStatement, variableDeclaration, objectLiteral, propertyAssignment, classDefinition,
    classMembers, memberFunction]

theorem mem_all (k : Kind) : k ∈ all := by
  cases k <;> simp [all]

def ofName? (name : String) : Option Kind :=
  all.find? (·.name == name)

theorem ofName?_name (k : Kind) : ofName? k.name = some k := by
  cases k <;> rfl

-- The kinds whose nodes have a text of their own.
def hasText : Kind → Bool
  | identifier | stringLiteral | numericLiteral | propertyAssignment | memberFunction => true
  | _ => false

def reader : Json.Reader Kind :=
  Json.Reader.tag.mapExcept fun name =>
    match ofName? name with
    | some k => .ok k
    | none => .error .malformed

end Kind

end ClassLift
