import ClassLift.Json.Reader
import ClassLift.Json.Value

/-!
Documentation of a node. Only the constructor mark and the base type matter to a conversion; the
rest goes along with the code that it describes.
-/

namespace ClassLift

namespace Doc

structure Param where
  name : String
  type : Option String := none
  deriving DecidableEq, Repr

end Doc

structure Doc where
  isConstructor : Bool := false
  -- As written, with all marks and braces.
  baseType : Option String := none
  params : List Doc.Param := []
  returnType : Option String := none
  description : Option String := none
  deriving DecidableEq, Repr

namespace Doc

open Json

def constructor (baseType returnType : Option String) : Doc where
  isConstructor := true
  baseType := baseType
  returnType := returnType

/- JSON -/

def Param.toJson (p : Param) : Value :=
  .object [("name", .text p.name), ("typeExpr", .ofOption .text p.type)]

-- An empty list of parameters is not written.
def toJson (d : Doc) : Value :=
  let params := if d.params.isEmpty then [] else [("params", .array (d.params.map Param.toJson))]
  .object <|
    [("isConstructor", .bool d.isConstructor), ("baseType", .ofOption .text d.baseType)] ++
    params ++
    [("returnType", .ofOption .text d.returnType), ("description", .ofOption .text d.description)]

structure Param.Draft where
  name : Option String := none
  type : Option (Option String) := none

def Param.members : List (Member Param.Draft) := [
    .of "name" (·.name) (fun a d => { d with name := some a }) .text,
    .of "typeExpr" (·.type) (fun a d => { d with type := some a }) (.orNull .text)]

def Param.Draft.finish (d : Param.Draft) : Option Param :=
  d.name.map fun name => { name, type := d.type.getD none }

def Param.reader : Reader Param :=
  .record Param.members .skipped {} Param.Draft.finish

structure Draft where
  isConstructor : Option Bool := none
  baseType : Option (Option String) := none
  params : Option (List Param) := none
  returnType : Option (Option String) := none
  description : Option (Option String) := none

def members : List (Member Draft) := [
    .of "isConstructor" (·.isConstructor) (fun a d => { d with isConstructor := some a }) .bool,
    .of "baseType" (·.baseType) (fun a d => { d with baseType := some a }) (.orNull .text),
    .of "params" (·.params) (fun a d => { d with params := some a }) (.list Param.reader),
    .of "returnType" (·.returnType) (fun a d => { d with returnType := some a }) (.orNull .text),
    .of "description" (·.description) (fun a d => { d with description := some a }) (.orNull .text)]

def Draft.finish (d : Draft) : Option Doc := some {
  isConstructor := d.isConstructor.getD false
  baseType := d.baseType.getD none
  params := d.params.getD []
  returnType := d.returnType.getD none
  description := d.description.getD none }

def reader : Reader Doc :=
  .record members .skipped {} Draft.finish

end Doc

end ClassLift
