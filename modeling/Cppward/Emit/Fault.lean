namespace Cppward.Emit

/-!
# Faults found while code is generated
-/

/-- Why no code is generated for a program. -/
inductive Fault where
  | globalOutsideFunction
  | globalNotName
  | defName (name definition : String)
  | destructorArguments
  | tooManyInterfaces
  | interfaceReturnType
  | interfaceParameterType
  | interfaceParameterForm
  | tooManyMutConst
  | mutConstOutsideMethod
  | tooManyOverrides
  | overrideOutsideMethod
  | tooManyFinal
  | finalOutsideMethod
  | tooManyNoinline
  | mutConstStatic
  | genericTemplate
  | mainTyped
  | nestedMain
  | destructorReturnType
  | genericDeclaration
  | declarationReturnType
  | pureVirtualOutsideClass
  | declarationAssignment
  | lambdaDefault
  | lambdaArgumentInDecltype
  | lambdaArgument
  | captureTarget
  | captureItem
  | captureVal
  | selfAccess
  | emptyInherits
  | multipleInheritance
  | className
  | classArity
  | classBlock
  | interfaceInit
  | secondInit
  | genericFieldInTemplate
  | classStatement
  | secondSuperInit
  | lateSuperInit
  | genericInitInTemplate
  | initParameter
  | emptySuperInit
  | selfInSuperInit
  | uninitialized (owner fields : String)
  | mixedInherits
  | whileArity
  | whileBlock
  | returnInIf
  | ifType
  | noscopeExpression
  | noscopeWithoutElse
  | noscopeAssign
  | noscopeUnbalanced
  | unparenthesizedAssign
  | typedIfExpression (kind : String)
  | forArity
  | forBlock
  | forHead
  | forTarget
  | tooManyMut
  | tooManyClassTypes
  | classReference
  | weakUnique
  | typedExpression
  | typedCallExpression
  | specifierFirst (name : String)
  | listTypeArity
  | emptyTupleType
  | mutPlacement
  | newOrGoto
  | typeForm
  | twoReturnTypes
  | constField (name specifier : String)
  | tupleRedefinition
  | typedTupleElement
  | globalReassigned (name : String)
  | throwArity
  | instanceArity
  | instanceClassForm
  | instanceTemplate
  | instanceNotClass
  | emptyNamespace
  | namespaceBlock
  | namespaceArity
  | namespaceName
  | unsafePlace
  | unknownFunction
  | typedDeclaration
  | autoAlone
  | tooManyClasses
  | tooManyMutConstClass
  | lambdaArgumentsMistake
  | typedContext
  | typedCall
  | pointerWord
  | referenceWord
  | fieldAccess (name : String)
  | commentForm
  | listTypeForm
  | emptyVector
  | bracesStatement
  | slicing
  | bracedClassCall
  | stringBothKinds
  | rawSuffix
  | includeArity
  deriving DecidableEq, Repr

def Fault.message : Fault → String
  | .globalOutsideFunction => "global declarations only allowed in function bodies"
  | .globalNotName => "global declarations only apply to an Identifier"
  | .defName name definition => s!"can't handle name {name} in def {definition}"
  | .destructorArguments => "destructors can't take arguments"
  | .tooManyInterfaces => "too many 'interface' specifiers"
  | .interfaceReturnType => "must specify return type of interface method"
  | .interfaceParameterType => "parameter types must be specified for interface methods"
  | .interfaceParameterForm =>
    "Only simple args allowed for interface method (c++ virtual functions with default arguments are best avoided)"
  | .tooManyMutConst => "too many 'mut' and 'const' specified"
  | .mutConstOutsideMethod => "Don't specify const/mut for a non-method"
  | .tooManyOverrides => "too many overrides specified"
  | .overrideOutsideMethod => "Don't specify 'override' for a non-method"
  | .tooManyFinal => "too many 'final' specified"
  | .finalOutsideMethod => "Don't specify 'final' for a non-method"
  | .tooManyNoinline => "too many 'noinline' specified"
  | .mutConstStatic => "const/mut makes no sense for a static function"
  | .genericTemplate => "Explicit template function with generic params"
  | .mainTyped =>
    "main implicitly returns int. no explicit return type or directives allowed."
  | .nestedMain => "unexpected nested main function"
  | .destructorReturnType => "destruct methods can't specifiy a return type"
  | .genericDeclaration => "no declarations with untyped/generic params"
  | .declarationReturnType => "declarations must specify a return type"
  | .pureVirtualOutsideClass => "expected a class/struct in '= 0' declaration"
  | .declarationAssignment => "bad assignment to function declaration"
  | .lambdaDefault => "lambda args may not have default values (not supported in C++)"
  | .lambdaArgumentInDecltype => "Unexpected lambda argument for lambda found inside decltype"
  | .lambdaArgument => "Unexpected lambda argument"
  | .captureTarget => "Unexpected lhs in capture list assign"
  | .captureItem => "Unexpected capture list item"
  | .captureVal =>
    "no generic 'val' capture allowed because a variable named 'val' has been defined."
  | .selfAccess => "unexpected attribute access"
  | .emptyInherits => "empty inherits list"
  | .multipleInheritance => "Multiple inheritance is not supported yet"
  | .className => "bad class first arg"
  | .classArity => "bad number of args to class"
  | .classBlock => "class missing block (bad second class arg)"
  | .interfaceInit => "init or destruct can't defined as interface methods"
  | .secondInit =>
    "Delegating constructors are not yet implemented (only one init method allowed for now)"
  | .genericFieldInTemplate => "no generic params with an explicit template class"
  | .classStatement => "Unexpected expression in class body"
  | .secondSuperInit => "only one call to super.init allowed"
  | .lateSuperInit =>
    "A call to super.init must occur in the 'initializer list' (that is, any statements before super.init must be of the form self.field = val"
  | .genericInitInTemplate => "no generic params in constructor for explicit template class"
  | .initParameter => "unexpected constructor arg"
  | .emptySuperInit =>
    "no explicit calls to super.init() without args (just let c++ do this implicitly)"
  | .selfInSuperInit => "no reads from self in super.init call"
  | .uninitialized owner fields =>
    s!"class {owner} defines a constructor (init method) but does not initialize these attributes: {fields}"
  | .mixedInherits =>
    "mix of ScopeResolution and AttributeAccess in inherits list - pick one or the other"
  | .whileArity => "Incorrect number of while args"
  | .whileBlock => "Last while arg must be a block"
  | .returnInIf => "no explicit return in if expression"
  | .ifType => "unexpected if type"
  | .noscopeExpression => "unscoped if disallowed in expression context"
  | .noscopeWithoutElse => "unscoped if without else block disallowed"
  | .noscopeAssign => "unexpected non-simple assign in noscope if"
  | .noscopeUnbalanced => "unbalanced assignments in if prevents noscope"
  | .unparenthesizedAssign => "assignment in if missing extra parenthesese"
  | .typedIfExpression kind => s!"An expression-if can't be used with a 'type', namely {kind}"
  | .forArity =>
    "'for' must have two arguments - the iteration part and the indented block. 'One liner' for loops are not supported."
  | .forBlock => "expected block as last arg of for"
  | .forHead => "unexpected 1st argument to for"
  | .forTarget => "Unexpected iter var"
  | .tooManyMut => "too many 'mut' specifiers"
  | .tooManyClassTypes => "too many class types in type"
  | .classReference =>
    "no ref/ptr specifiers allowed for class. Use Foo.class instead, or make your class a struct"
  | .weakUnique => "no weak specifier for type"
  | .typedExpression => "unexpected typed expression"
  | .typedCallExpression => "unexpected typed call"
  | .specifierFirst name =>
    s!"Invalid specifier. '{name}' can't be used at the beginning of a type. Maybe you want: 'auto:{name}':"
  | .listTypeArity => "Array literal type must have a single argument (for the element type)"
  | .emptyTupleType => "No empty tuples as types"
  | .mutPlacement => "unexpected placement of 'mut'"
  | .newOrGoto => "nice try"
  | .typeForm => "unexpected type"
  | .twoReturnTypes => "Two return types defined for lambda:"
  | .constField name specifier =>
    s!"const data members in C++ aren't very useful and prevent moves leading to unnecessary copying. Just use {name} = whatever (with no {specifier} \"type\" specified)"
  | .tupleRedefinition =>
    "typed tuple unpacking (\"structured bindings\" in C++) can't redefine variable: "
  | .typedTupleElement => "unexpected type in tuple"
  | .globalReassigned name =>
    s!"{name} is a global variable defined in ceto code (which is constexpr). No shadowing or reassignment allowed."
  | .throwArity => "throw takes 1 arg"
  | .instanceArity => "asinstance takes 2 args"
  | .instanceClassForm => "bad is/asinstance class arg"
  | .instanceTemplate => "is/asinstance arg can't be a template"
  | .instanceNotClass => "is/asinstance arg must be a class"
  | .emptyNamespace => "empty namespace args"
  | .namespaceBlock => "namespace last args must be a Block"
  | .namespaceArity => "too many namespace args"
  | .namespaceName => "bad namespace name"
  | .unsafePlace => "unsafe() call must be in Block"
  | .unknownFunction => "call to unknown function - use unsafe to call external C++"
  | .typedDeclaration => "Unexpected typed expression"
  | .autoAlone => "must specify const/mut for auto"
  | .tooManyClasses => "too many classes specified"
  | .tooManyMutConstClass => "too many mut/const specified for class type"
  | .lambdaArgumentsMistake =>
    "do you have the args wrong? [ it's lambda(x, 5) not lambda(x: 5) ] in "
  | .typedContext => "unexpected context for typed construct"
  | .typedCall => "Unexpected typed call"
  | .pointerWord => "Use of 'ptr' outside type context is an error"
  | .referenceWord => "Use of 'ref' outside type context is an error"
  | .fieldAccess name =>
    s!"no direct access to fields - use self.{name} instead of just {name}"
  | .commentForm => "unexpected ceto::comment "
  | .listTypeForm => "unexpected args in list-type"
  | .emptyVector => "Cannot create vector without elements"
  | .bracesStatement =>
    "Curly brace expression is invalid here. Use 'scope' for an anonymous scope."
  | .slicing => "advanced slicing not supported yet"
  | .bracedClassCall =>
    "Use round parentheses for ceto-defined class/struct constructor call (curly braces are automatic)"
  | .stringBothKinds => "string literal cannot be both c-string and std::string"
  | .rawSuffix => "no suffixes for cpp-string"
  | .includeArity => "bad angle include args"

end Cppward.Emit
