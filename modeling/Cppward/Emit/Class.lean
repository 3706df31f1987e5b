import Cppward.Emit.Assignment
import Cppward.Emit.Function

namespace Cppward.Emit

open Analysis

/-!
# Classes

A class is a struct of the target language.  Its fields without a type make it a template.  Fields
that the class gives no value are initialized by the `init` method, or by a constructor that is made
up for the purpose.
-/

variable (e : Emitter) (n : Node) (head : ClassHead) (c : Constructor) (cx : Context)

/-- A call of the base class's constructor. -/
def isSuperInit : Bool :=
  n.isCall &&
    match n.func with
    | some f => f.isAttribute && f.lhsName? == some "super" && f.rhsName? == some "init"
    | none => false

/-- The node is `self.field`.  Other accesses through `self` are refused. -/
def isSelfField : Gen Bool := do
  if n.isAttribute && n.lhsName? == some "self" then
    if n.rhsName?.isNone then Gen.refuse .selfAccess n
    return true
  else return false

/-- A comment that is kept in the generated code. -/
def isComment : Bool :=
  n.isScope && n.lhsName? == some "ceto" && (n.rhs?.map (·.isCallOf "comment")).getD false

/-! ### The head -/

/-- The first argument of a class: its name, its base, and its template parameters. -/
structure ClassHead where
  name : Node
  base : Option Node
  params : Option (List Node)

def ClassHead.ofNode : Gen ClassHead := do
  let head ← Gen.need n.args.head?
  let (name, base) ←
    if head.isCall then
      match head.args with
      | [base] => pure (← Gen.need head.func, some base)
      | [] => Gen.refuse .emptyInherits head
      | _ => Gen.refuse .multipleInheritance head
    else pure (head, none)
  let (name, params) ←
    if name.isTemplate then pure (← Gen.need name.func, some name.args) else pure (name, none)
  if !name.isIdent then Gen.refuse .className name
  return { name, base, params }

/-- The code of a base class.  A name alone stands for the class itself, not for a pointer to it. -/
def baseText (base : Option Node) (cx : Context) : Gen (Option String) := do
  match base with
  | none => return none
  | some b =>
    if b.isIdent then return b.name?
    else if b.isAttribute || b.isScope then return some (← e.node b cx)
    else if b.isTemplate then return some (← templateName e b cx)
    else return none

/-! ### The body -/

/-- The type of a field: one that is written, or a template parameter. -/
inductive FieldType where
  | declared (type : Node)
  | parameter (name : String)

/-- What the statements in the body of a class amount to. -/
structure Members where
  code : String := ""
  /-- The `init` method. -/
  init : Option Node := none
  /-- The fields without a value, with their declarations. -/
  fields : List (Node × String) := []
  fieldTypes : List (String × FieldType) := []
  /-- The template parameters that fields stand for. -/
  typeNames : List String := []
  /-- The interfaces of the class, and those that are defined with it, with their methods. -/
  interfaces : List String := []
  newInterfaces : List (String × List Node) := []

namespace Members

/-- Adds a method to the new interface that it defines. -/
def addToInterface (m : Members) (interface : String) (method : Node) : Members :=
  { m with newInterfaces :=
      if (m.newInterfaces.lookup interface).isSome then
        m.newInterfaces.map fun (name, methods) =>
          if name == interface then (name, methods ++ [method]) else (name, methods)
      else m.newInterfaces ++ [(interface, [method])] }

/-- Notes the interface that a method belongs to. -/
def addInterface (m : Members) (method name : Node) (cx : Context) : Gen Members := do
  match name.type with
  | none => return m
  | some type =>
    match type.isCallOf "interface", type.args with
    | true, [interface] =>
      if name.isOneOf ["init", "destruct"] then Gen.refuse .interfaceInit method
      let known ← Gen.lookupClass cx (some interface)
      let isKnown := (known.map (·.index.isNone)).getD false
      let text ← Gen.need interface.name?
      let m :=
        if (m.newInterfaces.lookup text).isSome || !isKnown then m.addToInterface text method else m
      Gen.modifyContext cx (·.addInterfaceMethod text method.id)
      return { m with
        interfaces := if m.interfaces.contains text then m.interfaces else m.interfaces ++ [text] }
    | _, _ => return m

def addField (m : Members) (n : Node) (type : String) (fieldType : FieldType) (indent : String) :
    Members :=
  let name := n.name?.getD ""
  let declaration := type ++ " " ++ name
  { m with
    code := m.code ++ indent ++ declaration ++ ";\n\n"
    fields := m.fields ++ [(n, declaration)]
    fieldTypes := m.fieldTypes.filter (·.1 != name) ++ [(name, fieldType)] }

/-- Adds a statement of the body of a class; `cx` is the context around the class and `inner` that
    of its body. -/
def add (cx inner : Context) (m : Members) (n : Node) :
    Gen Members := do
  let n ← Gen.current n
  let indent ← Gen.indent inner
  if n.isCallOf "def" then
    let name ← Gen.need n.args.head?
    let m ← m.addInterface n name cx
    if name.isNamed "init" then
      if m.init.isSome then Gen.refuse .secondInit n
      return { m with init := some n }
    else
      let code ← emitFunction e n (← Gen.enterWith inner ({ · with inParameterList := true }))
      return { m with code := m.code ++ code }
  else if n.isIdent then
    if n.isNamed "pass" then return m
    match n.type with
    | none =>
      if head.params.isSome then Gen.refuseBare .genericFieldInTemplate
      let type ← Gen.fresh "C"
      return { m with typeNames := m.typeNames ++ [type] }.addField n type (.parameter type) indent
    | some type =>
      let code ← emitType e n (some type) inner
      return m.addField n code (.declared type) indent
  else if n.isAssign then
    let code ← emitAssignment e n inner
    return { m with code := m.code ++ indent ++ code ++ ";\n\n" }
  else if isComment n then
    let code ← e.node n inner
    return { m with code := m.code ++ code }
  else Gen.refuse .classStatement n

end Members

/-! ### Constructors -/

/-- The `init` method of a class. -/
structure Constructor where
  definition : Node
  params : List Node
  /-- The fields that the method begins with initializing, and their values. -/
  initializers : List (Node × Node) := []
  /-- The call of the base class's constructor. -/
  superInit : Option Node := none
  /-- The fields that take the last use of a parameter. -/
  movedFields : List String := []
  /-- The parameters that are passed on to the base class and used nowhere else. -/
  passedOn : List String := []
  /-- The statements after the initializers. -/
  body : List Node := []

namespace Constructor

/-- The names among nodes that are not used again. -/
def lastUses (ns : List Node) : Gen (List String) := do
  let last ← ns.filterM fun a => do if a.isIdent then Gen.isLastUse a else return false
  return last.filterMap Node.name?

/-- Takes initializers, and a call of the base class's constructor, off the front of statements. -/
def split (c : Constructor) : List Node → Gen Constructor
  | [] => return c
  | n :: rest => do
    let isInitializer ←
      match n.isAssign, n.lhs? with
      | true, some target => isSelfField target
      | _, _ => pure false
    if isInitializer then
      let field ← Gen.need (n.lhs?.bind Node.rhs?)
      let value ← Gen.need n.rhs?
      let moved := if (← lastUses [value]).isEmpty then [] else field.name?.toList
      split { c with
        initializers := c.initializers ++ [(field, value)]
        movedFields := c.movedFields ++ moved } rest
    else if isSuperInit n then
      if c.superInit.isSome then Gen.refuse .secondSuperInit n
      split { c with superInit := some n, passedOn := ← lastUses n.args } rest
    else return { c with body := n :: rest }

/-- The constructor that an `init` method describes. -/
def ofNode : Gen Constructor := do
  let block ← Gen.need n.args.getLast?
  Gen.ensure (block.isBlock && n.args.length > 1)
  let c ← split { definition := n, params := (n.args.drop 1).dropLast } block.args
  if c.body.any (Node.any isSuperInit) then Gen.refuseBare .lateSuperInit
  return c

/-- The names of the fields that are initialized. -/
def initialized : List String := c.initializers.filterMap (·.1.name?)

end Constructor

/-- The parameters of a constructor: their codes, their types by name, and the template parameters
    that they stand for. -/
structure Signature where
  params : List String := []
  types : List (String × String) := []
  typeNames : List String := []

namespace Signature

def push (s : Signature) (name code type : String) : Signature :=
  { s with params := s.params ++ [code], types := (name, type) :: s.types }

/-- Adds the parameter `n` with the type of a field that it initializes. -/
def pushFieldTyped (n : Node) (s : Signature)
    (field : String × FieldType) : Gen Signature := do
  let name := n.name?.getD ""
  match field.2 with
  | .declared type =>
    let n ← Gen.setType n (some type)
    let (code, rest) ← Gen.need (← typedParameter e n cx)
    return s.push name (code ++ " " ++ rest) code
  | .parameter type =>
    let const := if c.movedFields.contains field.1 then "" else "const "
    return s.push name (const ++ type ++ " " ++ name) type

/-- Adds a parameter of the constructor `c` of the class `n`; `last` is the last statement in the
    body of the class. -/
def add (n last : Node) (head : ClassHead) (members : Members) (c : Constructor)
    (cx : Context) (s : Signature) (a : Node) : Gen Signature := do
  let a ← Gen.current a
  match ← typedParameter e a cx with
  | some (type, rest) =>
    let target ← if a.isAssign then Gen.need a.lhs? else pure a
    return s.push (← Gen.need target.name?) (type ++ " " ++ rest) type
  | none =>
    if !a.isIdent then Gen.refuse .initParameter last
    let fields := (c.initializers.filter (·.2.name? == a.name?)).filterMap fun (field, _) =>
      members.fieldTypes.find? fun (name, _) => some name == field.name?
    if !fields.isEmpty then fields.foldlM (pushFieldTyped e c cx a) s
    else
      if (head.params.map (!·.isEmpty)).getD false then Gen.refuse .genericInitInTemplate n
      let type ← Gen.fresh "C"
      let name := a.name?.getD ""
      let code := if c.passedOn.contains name then type ++ " " ++ name
        else "const " ++ type ++ "& " ++ name
      return { s with typeNames := s.typeNames ++ [type] }.push name code type

end Signature

/-- The call of the base class's constructor.  The type of a base class that is a template is found
    from the arguments.  The second result tells that the class is then a template as well. -/
def emitSuperInit (base : Option String) (s : Signature)
    (call : Node) (cx inner : Context) : Gen (String × Option String × Bool) := do
  if call.args.isEmpty then Gen.refuseBare .emptySuperInit
  let stands ← call.args.mapM fun a => do
    match a.name?.bind fun name => s.types.lookup name with
    | some type => return "std::declval<" ++ type ++ ">()"
    | none =>
      if ← isSelfField a then Gen.refuse .selfInSuperInit a
      e.node a inner
  let args ← e.nodes call.args inner
  let known ← Gen.lookupClass cx head.base
  let isOpen := (known.map (!·.entry.isConcrete)).getD false
  let isTemplate := isOpen && !((known.map (·.entry.isPureVirtual)).getD false)
  let base ←
    match isTemplate, head.base.bind Node.name? with
    | true, some name =>
      pure ("std::type_identity_t<decltype(" ++ name ++ "(" ++ commas stands ++ "))>")
    | _, _ => Gen.need base
  return (base ++ " (" ++ args ++ ")", some base, isOpen)

/-! ### Interfaces -/

/-- The method of an interface that a method of a class stands for.  It is not checked again that each
    parameter is a name: the code of the method, which comes first, refuses all others. -/
def emitInterfaceMethod : Gen String := do
  let n ← Gen.current n
  let name ← Gen.need n.args.head?
  let args := n.args.drop 1
  Gen.ensure ((args.getLast?.map Node.isBlock).getD false)
  if n.type.isNone then Gen.refuseBare .interfaceReturnType
  let type ← emitType e n n.type cx
  let specs := (name.type.map Node.specifiers).getD []
  let consts := specs.filter Node.isMutOrConst
  if consts.length > 1 then Gen.refuse .tooManyMutConst n
  let const := if (consts.head?.map (·.isNamed "mut")).getD false then "" else " const"
  let rest := specs.filter fun t => !t.isMutOrConst && !t.isCallOf "interface"
  let specifier ←
    match Node.ofSpecifiers? rest with
    | some type => pure (" " ++ (← emitType e name (some type) cx) ++ " ")
    | none => pure ""
  let params ← args.dropLast.mapM fun a => do
    if a.type.isNone then Gen.refuseBare .interfaceParameterType
    Gen.need (← parameterText e a cx)
  return specifier ++ "virtual " ++ type ++ " " ++ name.name?.getD "None" ++ "(" ++ commas params ++
    ")" ++ const ++ " = 0;\n\n"

def emitInterface (indent : String) (cx : Context) (interface : String × List Node) :
    Gen String := do
  let (name, methods) := interface
  let codes ← methods.mapM fun m => do return indent ++ (← emitInterfaceMethod e m cx)
  return "struct " ++ name ++ " : ceto::object \x7b\n" ++ String.join codes ++ indent ++
    "virtual ~" ++ name ++ "() = default;\n\n" ++ "\x7d;\n\n"

/-! ### Classes -/

/-- The constructor that initializes all fields without a value. -/
def memberwiseConstructor (name : String) (members : Members) (indent : String) (cx : Context) :
    Gen String := do
  let initializers ← members.fields.mapM fun (n, _) => do
    let n ← Gen.current n
    let field := n.name?.getD ""
    let isMoved ←
      match n.type with
      | none => pure true
      | some type => isPassedByReference type cx
    return field ++ "(" ++ (if isMoved then "std::move(" ++ field ++ ")" else field) ++ ")"
  return indent ++ "explicit " ++ name ++ "(" ++ commas (members.fields.map Prod.snd) ++ ") : " ++
    commas initializers ++ " \x7b\x7d\n\n"

def baseClasses (members : Members) (base : Option String) (entry : ClassEntry)
    (isTemplate : Bool) : List String :=
  let name := head.name.name?.getD ""
  let own := members.interfaces ++ base.toList
  let implied :=
    if head.base.isSome then []
    else if entry.isUnique || entry.isStruct then ["ceto::object"]
    else if isTemplate then ["ceto::enable_shared_from_this_base_for_templates"]
    else ["ceto::shared_object", "std::enable_shared_from_this<" ++ name ++ ">"]
  (own ++ implied).map ("public " ++ ·)

/-- The declaration that makes the constructors of the base class those of a class that has none. -/
def inheritedConstructors (base : Option String) (cx : Context) :
    Gen String := do
  match head.base with
  | none => return ""
  | some b =>
    let text := base.getD ""
    if b.isIdent then return "using " ++ text ++ "::" ++ text ++ ";\n\n"
    else if b.isScope || b.isAttribute then
      match b.flattened.getLast? with
      | some last =>
        if last.isScope || last.isAttribute then Gen.refuse .mixedInherits b
        else if last.isIdent then
          return "using " ++ text ++ "::" ++ (← e.node last cx) ++ ";\n\n"
        else return ""
      | none => Gen.unforeseen
    else return ""

/-- The constructor that an `init` method describes, and the base class as it is known then. -/
def emitConstructor (members : Members)
    (base : Option String) (index : Nat) (c : Constructor) (cx inner : Context) :
    Gen (String × Option String × List String) := do
  let name := head.name.name?.getD ""
  let indent ← Gen.indent inner
  let initcx ← Gen.enter inner
  let last ← Gen.need ((← Gen.current n).args.getLast?.bind (·.args.getLast?))
  let signature ← c.params.foldlM (Signature.add e n last head members c initcx) {}
  let initializers ← c.initializers.mapM fun (field, value) => do
    let code ← e.node field initcx
    return code ++ "(" ++ (← e.node value initcx) ++ ")"
  let (items, base) ←
    match c.superInit with
    | none => pure (initializers, base)
    | some call => do
      let (code, base, isOpen) ← emitSuperInit e head base signature call cx inner
      if isOpen then Gen.modifyClass index ({ · with isConcrete := false })
      pure (code :: initializers, base)
  let list := if items.isEmpty then "" else " : " ++ commas items ++ " "
  let body ← emitBody e c.definition (Node.ofBlock c.body) initcx
  return (indent ++ "explicit " ++ name ++ "(" ++ commas signature.params ++ ")" ++ list ++ "\x7b\n" ++
    body ++ indent ++ "\x7d\n\n", base, signature.typeNames)

def emitClassBody (n block : Node) (head : ClassHead) (index : Nat) (cx : Context) :
    Gen String := do
  let name := head.name.name?.getD ""
  let inner ← Gen.enterWith cx ({ · with inClassBody := true, inFunctionBody := false })
  let outerIndent ← Gen.indent cx
  let indent ← Gen.indent inner
  let members ← block.args.foldlM (Members.add e head cx inner) {}
  let isTemplate := head.params.isSome || !members.typeNames.isEmpty
  let baseIsOpen := ((← (match head.base with
    | some b => if b.isIdent then Gen.lookupClass cx (some b) else pure none
    | none => pure none)).map (!·.entry.isConcrete)).getD false
  Gen.modifyClass index ({ · with isConcrete := !isTemplate && !baseIsOpen })
  let base ← baseText e head.base cx
  let constructor? ← (members.init.mapM Constructor.ofNode : Gen _)
  let (constructorCode, base, typeNames) ←
    match constructor? with
    | some c => emitConstructor e n head members base index c cx inner
    | none => pure ("", base, [])
  let initialized := (constructor?.map Constructor.initialized).getD []
  let open_ := members.fields.filter fun (f, _) => !initialized.contains (f.name?.getD "")
  let memberwise ←
    if open_.isEmpty then pure ""
    else if constructor?.isSome then do
      let texts ← open_.mapM fun (f, _) => do return (← Gen.current f).text
      Gen.refuseBare (.uninitialized name (commas texts))
    else memberwiseConstructor name members indent cx
  let hasRequired := (constructor?.map (·.params.any (!·.isAssign))).getD false
  let noDefault :=
    if hasRequired || !open_.isEmpty then indent ++ name ++ "() = delete;\n\n" else ""
  let interfaces ← members.newInterfaces.mapM (emitInterface e indent cx)
  let entry := (← Gen.program).classEntry index
  let bases := baseClasses head members base entry isTemplate
  let inherited ←
    if constructor?.isSome || !open_.isEmpty then pure ""
    else inheritedConstructors e head base cx
  let typeNames := members.typeNames ++ typeNames
  let template ←
    if !typeNames.isEmpty then
      pure ("template <" ++ commas (typeNames.map ("typename " ++ ·)) ++ ">")
    else if (head.params.map (!·.isEmpty)).getD false then
      pure ("template <" ++ (← e.nodes (head.params.getD []) cx) ++ ">")
    else pure ""
  return String.join interfaces ++ template ++ "struct " ++ name ++ " : " ++ commas bases ++
    " \x7b\n\n" ++ inherited ++ outerIndent ++ members.code ++ constructorCode ++ memberwise ++
    noDefault ++ outerIndent ++ "\x7d;\n\n"

/-- The code of a class, or of the declaration of one that is defined later. -/
def emitClass : Gen String := do
  let n ← Gen.current n
  let head ← ClassHead.ofNode n
  let block? ←
    match n.args with
    | [_] => pure none
    | [_, block] => if block.isBlock then pure (some block) else Gen.refuse .classBlock n
    | _ => Gen.refuse .classArity n
  let name := head.name.name?.getD ""
  let entry : ClassEntry :=
    { name
      definition := n.id
      isUnique := (n.type.map (·.isNamed "unique")).getD false
      isStruct := n.funcName? == some "struct"
      isForward := block?.isNone
      isConcrete := head.params.isNone }
  let index ← modifyGet fun g =>
    let (index, p) := g.program.addClass cx entry
    (index, { g with program := p })
  match block? with
  | none => return (← Gen.indent cx) ++ "struct " ++ name ++ ";\n\n"
  | some block => emitClassBody e n block head index cx

end Cppward.Emit
